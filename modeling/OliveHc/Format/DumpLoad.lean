/-
A dump and the start that loads it.

The records of a dump stand in the order of the device, so each finds its
place behind the one before. What comes back is what was dumped, without
the items under the table, those that have expired and those whose port
is gone, as long as no item is empty: an item of length 0 is linked into
the list and freed.
-/
import OliveHc.Format.Duplicates
import OliveHc.Format.Turn

namespace OliveHc

/-! ## What comes back -/

/-- The values are in the ranges of the fields of `ohc_item_t`. -/
structure Item.InRange (x : Item) : Prop where
  length : x.length < 2 ^ 32
  expire : -2 ^ 31 ≤ x.expire ∧ x.expire < 2 ^ 31
  headersLen : x.headersLen < 2 ^ 16

namespace Master

/-- A state in which device `d` is dumped. -/
structure Dumpable (d : Nat) (m : Master) : Prop where
  allocator : AllocatorInv m.space d
  items : ∀ a, .item a ∈ m.space.order d → (m.space.item a).InRange
  ports : ∀ s ∈ m.servers, (m.server s).conf.listenPort ≠ 0 ∧ (m.server s).conf.listenPort < 2 ^ 16
  slots : ∀ s ∈ m.servers, m.serverIndexs.get (m.server s).index = some s
  running : ∀ a, .item a ∈ m.space.order d → ∀ s, m.serverOfItem a = some s → (m.server s).deleted = false → s ∈ m.servers

/-- The server of the start `m₁` to which item `a` of a dump of `n` items
comes back. -/
def comesTo (n : Nat) (m m₁ : Master) (a : Nat) : Option Nat :=
  if (m.space.item a).offset < ohcFmInfoSize + n * formatItemSize ∨ (m.space.item a).expire ≤ m₁.now then none
  else (m.serverOfItem a).bind fun s => m₁.serverByPort (m.server s).conf.listenPort

/-- The items that come back, each with its server. -/
def comesBack (items : List Nat) (m m₁ : Master) : List (Nat × Nat) :=
  items.filterMap fun a => (m.comesTo items.length m₁ a).map (·, a)

/-- The bytes of an item's block. -/
def Occupies (m : Master) (a p : Nat) : Prop :=
  (m.space.item a).offset ≤ p ∧ p < (m.space.item a).offset + ipbucketBlockSize (m.space.item a).length

/-- Item `b` on device `e` is the item `x.2` of the dump, at server `x.1`. -/
structure Returned (e : Nat) (m m' : Master) (b : Nat) (x : Nat × Nat) : Prop where
  item : m'.space.item b = { m.space.item x.2 with
    putting := false, deleted := false, badblock := false, used := 0, clear := 0
    serverIndex := (m'.server x.1).index, deviceIndex := (m'.space.device e).index }
  listed : .item b ∈ m'.space.order e
  hash : (m'.hash x.1).Has ⟨(m.space.item x.2).id, .item b⟩

section Records

variable {m m₁ : Master} {d : Nat} {items : List Nat} {records : List FormatItem}

theorem formatItems_forall₂ (h : (items.mapM fun a => m.formatItem a) = some records) :
    List.Forall₂ (fun a x => m.formatItem a = some x) items records := by
  induction items generalizing records with
  | nil =>
    cases h
    exact .nil
  | cons a items ih =>
    rw [List.mapM_cons] at h
    obtain ⟨x, hx, h⟩ := Option.bind_eq_some_iff.mp h
    obtain ⟨l, hl, h⟩ := Option.bind_eq_some_iff.mp h
    cases h
    exact .cons hx (ih hl)

/-- The record of an item that is dumped. -/
theorem formatItem_spec {a : Nat} {x : FormatItem} (hm : Dumpable d m) (ha : .item a ∈ m.space.order d)
    (hd : m.dumps a = some true) (hx : m.formatItem a = some x) :
    x.Typed ∧ x.place = (m.space.item a).offset ∧ x.size = ipbucketBlockSize (m.space.item a).length ∧
      ∃ s, m.serverOfItem a = some s ∧ (0 ≤ x.serverIndex ∧ x.serverIndex < iptArraySize) ∧
        m.serverDumpPorts x.serverIndex.toNat = (m.server s).conf.listenPort ∧ (m.server s).conf.listenPort ≠ 0 := by
  obtain ⟨s, hs, hlive, -⟩ := serverItemValid_clear (dumps_valid hd)
  obtain ⟨s', hs', hx⟩ := Option.bind_eq_some_iff.mp hx
  obtain rfl : s' = s := Option.some.inj (hs'.symm.trans hs)
  cases hx
  have hmem := hm.running a ha _ hs hlive
  have hslot := hm.slots _ hmem
  have hrange := hm.items a ha
  have hoff : (m.space.item a).offset < 2 ^ 40 := hm.allocator.offset _ ha
  have hbounds : 0 ≤ (m.server s').index ∧ (m.server s').index < iptArraySize := by
    by_contra hno
    rw [IdxPointer.get, if_neg hno] at hslot
    cases hslot
  have hlt := hbounds.2
  simp only [iptArraySize] at hlt
  refine ⟨⟨by simp only; omega, hrange.length, hrange.expire, hrange.headersLen, by simp only; omega⟩, ?_, rfl, s', hs,
    hbounds, ?_, (hm.ports s' hmem).1⟩
  · show ((m.space.item a).offset % (2 ^ 40 : Nat) : Int).toNat = _
    omega
  · -- The index has one server.
    rcases m.serverDumpPorts_cases (m.server s').index.toNat with ⟨z, hz, hi, hp⟩ | ⟨hno, -⟩
    · rw [hp]
      rw [Int.toNat_of_nonneg hbounds.1] at hi
      have hget := hm.slots z hz
      rw [hi, hslot] at hget
      rw [Option.some.inj hget]
    · exact absurd (Int.toNat_of_nonneg hbounds.1).symm (hno s' hmem)

/-- The items of a dump stand in the order of their offsets. -/
theorem Dumpable.sorted (hm : Dumpable d m) (hitems : m.dumpItems (m.space.order d) = some items) :
    (items.Pairwise fun a b => (m.space.item a).offset < (m.space.item b).offset ∧
      (m.space.item a).offset + ipbucketBlockSize (m.space.item a).length ≤ (m.space.item b).offset) ∧
      items.length < 2 ^ 41 := by
  obtain ⟨hsub, -⟩ := dumpItems_sublist hitems
  have hpair := hm.allocator.sorted.and hm.allocator.disjoint
  have hlist := List.pairwise_map.mp (hpair.sublist hsub)
  refine ⟨hlist, ?_⟩
  -- They have different offsets below `2 ^ 40`.
  have hnodup : (items.map fun a => (m.space.item a).offset).Nodup :=
    List.pairwise_map.mpr (hlist.imp fun h => Nat.ne_of_lt h.1)
  have hrange : (items.map fun a => (m.space.item a).offset) ⊆ List.range (2 ^ 40) := by
    intro x hx
    obtain ⟨a, ha, rfl⟩ := List.mem_map.mp hx
    exact List.mem_range.mpr (hm.allocator.offset _ (hsub.subset (List.mem_map_of_mem ha)))
  have hlen := (List.subperm_of_subset hnodup hrange).length_le
  rw [List.length_map, List.length_range] at hlen
  omega

/-- Records and items that are filtered alike. -/
theorem picked_forall₂ {pick : FormatItem → Option Nat} {goal : Nat → Option Nat}
    (h : List.Forall₂ (fun a x => m.formatItem a = some x ∧ pick x = goal a) items records) :
    List.Forall₂ (fun y x => y.1 = x.1 ∧ m.formatItem x.2 = some y.2) (picked pick records)
      (items.filterMap fun a => (goal a).map (·, a)) := by
  induction h with
  | nil => exact .nil
  | @cons a x items records hx _ ih =>
    obtain ⟨hx, hpick⟩ := hx
    rw [picked, List.filterMap_cons, List.filterMap_cons, hpick]
    cases goal a with
    | none => exact ih
    | some s => exact .cons ⟨rfl, hx⟩ ih

/-- **The records that pass the checks** are those of the items that come
back. -/
theorem Dumpable.picked (hm : Dumpable d m) (m₁ : Master) (hitems : m.dumpItems (m.space.order d) = some items)
    (hrecords : (items.mapM fun a => m.formatItem a) = some records) {image image₁ : Image}
    (hstored : Stored m.serverDumpPorts records image image₁) :
    List.Forall₂ (fun y x => y.1 = x.1 ∧ m.formatItem x.2 = some y.2) (OliveHc.picked (m₁.picksOn image₁) records)
      (m.comesBack items m₁) := by
  have hforall := formatItems_forall₂ hrecords
  obtain ⟨-, hlen⟩ := hm.sorted hitems
  have hoverride : toI64 (ohcFmInfoSize + records.length * formatItemSize) =
      ((ohcFmInfoSize + items.length * formatItemSize : Nat) : Int) := by
    rw [← hforall.length_eq]
    have hinfo : ohcFmInfoSize = 8224 := by decide
    simp only [hinfo, formatItemSize]
    rw [toI64_of_lt (by omega) (by omega)]
    omega
  refine picked_forall₂ ?_
  refine (forall₂_mem hforall).imp fun a x hax => ?_
  obtain ⟨ha, -, hrecord⟩ := hax
  obtain ⟨hmem, hd⟩ := mem_dumpItems hitems ha
  obtain ⟨-, -, -, s, hs, hbounds, hport, -⟩ := formatItem_spec hm hmem hd hrecord
  refine ⟨hrecord, ?_⟩
  rw [hstored.picksOn hbounds.2, picks, comesTo, hoverride, hport, hs]
  obtain ⟨s', -, hx⟩ := Option.bind_eq_some_iff.mp hrecord
  cases hx
  simp only [Nat.cast_lt, Option.bind_some]

end Records

/-! ## Every record finds its place -/

/-- The items of the pieces, if no record is empty. -/
theorem entriesOf_map {ps : List Piece} {cs : List Cut} (hlen : ps.length = cs.length) (hsize : ∀ c ∈ cs, c.record.size ≠ 0) :
    (entriesOf ps cs).map (·.1) = ps.map Piece.item ∧ (entriesOf ps cs).map (·.2) = cs.map fun c => (c.server, c.record) := by
  induction ps generalizing cs with
  | nil =>
    obtain rfl : cs = [] := List.length_eq_zero_iff.mp hlen.symm
    exact ⟨rfl, rfl⟩
  | cons p ps ih =>
    cases cs with
    | nil => cases hlen
    | cons c cs =>
      obtain ⟨h1, h2⟩ := ih (Nat.succ.inj hlen) fun c hc => hsize c (List.mem_cons_of_mem _ hc)
      rw [entriesOf, if_neg (hsize c List.mem_cons_self)]
      simp only [List.map_cons, h1, h2, and_self]

/-- An empty record leaves no item. -/
theorem length_entriesOf {ps : List Piece} {cs : List Cut} (hlen : cs.length ≤ (entriesOf ps cs).length) :
    ∀ c ∈ cs, c.record.size ≠ 0 := by
  have hle : ∀ (ps : List Piece) (cs : List Cut), (entriesOf ps cs).length ≤ (cs.filter fun c => c.record.size ≠ 0).length := by
    intro ps
    induction ps with
    | nil => exact fun cs => Nat.zero_le _
    | cons p ps ih =>
      intro cs
      cases cs with
      | nil => exact Nat.zero_le _
      | cons c cs =>
        rw [entriesOf]
        split
        · next hzero =>
          rw [List.filter_cons_of_neg (by simpa using hzero)]
          exact ih cs
        · next hne =>
          rw [List.filter_cons_of_pos (by simpa using hne)]
          exact Nat.succ_le_succ (ih cs)
  have hall := List.length_filter_eq_length_iff.mp (Nat.le_antisymm (List.length_filter_le _ cs) (hlen.trans (hle ps cs)))
  exact fun c hc => by simpa using hall c hc

/-! ## The dump -/

section Dump

variable {m m₁ : Master} {d : Nat} {items : List Nat} {image image₁ : Image} {pad : List UInt8} {itemPad : Nat → List UInt8}

/-- What `format_store_device` leaves. -/
theorem Dumpable.stored (hm : Dumpable d m) (hpad : pad.length = 4) (hitem : ∀ i, (itemPad i).length = 4)
    (hitems : m.dumpItems (m.space.order d) = some items)
    (hstore : m.formatStoreDevice m.serverDumpPorts pad itemPad d image = some (true, image₁)) :
    ∃ records, (items.mapM fun a => m.formatItem a) = some records ∧ Stored m.serverDumpPorts records image image₁ := by
  unfold formatStoreDevice at hstore
  simp only [hitems, Option.bind_eq_bind, Option.bind_some] at hstore
  obtain ⟨records, hrecords, hstore⟩ := Option.bind_eq_some_iff.mp hstore
  have hforall := formatItems_forall₂ hrecords
  obtain ⟨-, hlen⟩ := hm.sorted hitems
  refine ⟨records, hrecords, ?_⟩
  split at hstore
  · cases hstore
  cases hstore
  refine dumpImage_stored image hpad hitem (serverDumpPorts_lt fun s hs => (hm.ports s hs).2) (fun x hx => ?_)
    (by rw [← hforall.length_eq]; omega)
  obtain ⟨a, ha, hx⟩ := forall₂_mem_right hforall hx
  obtain ⟨hmem, hd⟩ := mem_dumpItems hitems ha
  exact (formatItem_spec hm hmem hd hx).1

theorem mem_comesBack {x : Nat × Nat} (hx : x ∈ m.comesBack items m₁) : x.2 ∈ items ∧ m.comesTo items.length m₁ x.2 = some x.1 := by
  obtain ⟨a, ha, hx⟩ := List.mem_filterMap.mp hx
  obtain ⟨s, hs, rfl⟩ := Option.map_eq_some_iff.mp hx
  exact ⟨ha, hs⟩

/-- Where the record of an item has its block. -/
theorem Dumpable.partners (hm : Dumpable d m) (hitems : m.dumpItems (m.space.order d) = some items)
    {l : List (Nat × FormatItem)}
    (hrel : List.Forall₂ (fun y x => y.1 = x.1 ∧ m.formatItem x.2 = some y.2) l (m.comesBack items m₁)) :
    List.Forall₂ (fun y x => y.1 = x.1 ∧ m.formatItem x.2 = some y.2 ∧ .item x.2 ∈ m.space.order d ∧
      y.2.place = (m.space.item x.2).offset ∧ y.2.size = ipbucketBlockSize (m.space.item x.2).length) l
      (m.comesBack items m₁) := by
  refine (forall₂_mem hrel).imp fun y x hyx => ?_
  obtain ⟨-, hx, hs, hrecord⟩ := hyx
  obtain ⟨hmem, hd⟩ := mem_dumpItems hitems (mem_comesBack hx).1
  obtain ⟨-, hplace, hsize, -⟩ := formatItem_spec hm hmem hd hrecord
  exact ⟨hs, hrecord, hmem, hplace, hsize⟩

end Dump

/-! ## The load -/

section Load

variable {rt : Runtime} {m m₁ m₂ m' : Master} {d e f : Nat} {items : List Nat} {image image₁ image' : Image}
  {l : List (Nat × FormatItem)} {ps : List Piece} {sp : Space}

/-- The items in the list of a device that was loaded. -/
theorem Pieces.mem_order (h : Pieces rt.al e f 0 [] l ps m₁ m₂) (hturn : Turn e f m₁) (hpost : m₂.space.deviceLoadPost e = some sp)
    {b : Nat} : .item b ∈ sp.order e ↔ b ∈ ps.map Piece.item := by
  rcases (h.loadPost_order hturn.order hpost).2 with ⟨-, hlast⟩ | ⟨-, hlast, -⟩
  · rw [hlast, mem_nodes_item]
  · rw [hlast, List.mem_append, mem_nodes_item]
    simp

/-- **The items that come back**, if none of them is empty. -/
theorem Pieces.returned (h : Pieces rt.al e f 0 [] l ps m₁ m₂) (hturn : Turn e f m₁) (hm : Dumpable d m)
    (hitems : m.dumpItems (m.space.order d) = some items)
    (hrel : List.Forall₂ (fun y x => y.1 = x.1 ∧ m.formatItem x.2 = some y.2) l (m.comesBack items m₁))
    (hentries : (entriesOf ps (cutsOf (m₁.space.device e).capacity 0 l)).map (·.1) = ps.map Piece.item ∧
      (entriesOf ps (cutsOf (m₁.space.device e).capacity 0 l)).map (·.2) = l)
    (hpost : m₂.space.deviceLoadPost e = some sp) :
    List.Forall₂ (Returned e m { m₂ with space := sp }) (ps.map Piece.item) (m.comesBack items m₁) := by
  obtain ⟨hnew, hl⟩ := hentries
  have hrestored := h.restored
  generalize entriesOf ps (cutsOf (m₁.space.device e).capacity 0 l) = t at hnew hl hrestored
  obtain ⟨hframe, hitem, -⟩ := h.rest.loadPost hpost
  have hspec := hm.partners hitems hrel
  rw [← hl, List.forall₂_map_left_iff] at hspec
  rw [← hnew, List.forall₂_map_left_iff]
  refine (forall₂_mem hspec).imp fun y x hyx => ?_
  obtain ⟨hy, -, hs, hrecord, -, hplace, -⟩ := hyx
  obtain ⟨z, -, hz⟩ := Option.bind_eq_some_iff.mp hrecord
  refine ⟨?_, ?_, ?_⟩
  · show sp.item y.1 = _
    obtain ⟨_, _, _, hserver⟩ := hrestored.server y.2.1
    obtain ⟨_, _, hdev⟩ := h.frame.same.device e
    obtain ⟨_, _, hdev'⟩ := hframe.same.device e
    rw [hitem, hrestored.item y hy, restoredItem, hplace]
    simp only [← hs, hserver, hdev', hdev]
    rw [← Option.some.inj hz]
  · show .item y.1 ∈ sp.order e
    rw [h.mem_order hturn hpost, ← hnew]
    exact List.mem_map_of_mem hy
  · show (m₂.hash x.1).Has _
    obtain ⟨L, hL, hlive⟩ := hturn.hash x.1
    rw [(hrestored.hash x.1 L hL hlive).has_iff]
    refine List.mem_append_left _ (mem_loadedNodes.mpr ⟨y, hy, hs, ?_⟩)
    rw [← Option.some.inj hz]

/-- **The rest is free**, if none of the items is empty. -/
theorem Pieces.free (hal : ∀ n k, (rt.al.get n k).isSome) (h : Pieces rt.al e f 0 [] l ps m₁ m₂) (hturn : Turn e f m₁)
    (hsize : ∀ c ∈ cutsOf (m₁.space.device e).capacity 0 l, c.record.size ≠ 0)
    (hpost : m₂.space.deviceLoadPost e = some sp) {back : List (Nat × Nat)}
    (hret : List.Forall₂ (Returned e m { m₂ with space := sp }) (ps.map Piece.item) back) (lo hi : Nat) :
    (∃ g, .fblock g ∈ sp.order e ∧ (sp.fblock g).offset = lo ∧ lo + (sp.fblock g).blockSize = hi) ↔
      IsGap (fun p => ∃ x ∈ back, m.Occupies x.2 p) (sp.device e).capacity lo hi := by
  obtain ⟨hfblock, hcase⟩ := h.loadPost_order hturn.order hpost
  obtain ⟨T, htiles, horder, hextent, hcoalesced, -, htags⟩ := h.layout_of hsize
    (extent_congr (h.rest.loadPost hpost).2.1 hfblock) (hcase.imp_right fun hc => ⟨hc.1, hc.2.1⟩)
  have hcap : (sp.device e).capacity = (m₁.space.device e).capacity := by
    obtain ⟨_, _, hdev⟩ := h.frame.same.device e
    obtain ⟨_, _, hdev'⟩ := (h.rest.loadPost hpost).1.same.device e
    rw [hdev', hdev]
  -- An item of the list has the block of the item that it was.
  have hblock : ∀ {b : Nat} {x : Nat × Nat} {t : Tile}, Returned e m { m₂ with space := sp } b x → t ∈ T →
      t.tag = some (.item b) → ∀ p, t.Has p ↔ m.Occupies x.2 p := by
    intro b x t hb ht htag p
    have hext := hextent t ht _ htag
    rw [Space.extent, show sp.item b = _ from hb.item] at hext
    obtain ⟨h1, h2⟩ := Prod.mk.inj hext
    rw [Seg.Has, Seg.stop, Occupies, ← h1, ← h2]
  have hcovered : TakenAt IsFree T = fun p => ∃ x ∈ back, m.Occupies x.2 p := by
    funext p
    refine propext ⟨?_, ?_⟩
    · rintro ⟨t, ht, hfree, hp⟩
      obtain ⟨n, htag⟩ := Option.ne_none_iff_exists'.mp (htags hal t ht)
      cases n with
      | fblock g => exact absurd ⟨g, htag⟩ hfree
      | item b =>
        have hmem : .item b ∈ sp.order e := horder ▸ List.mem_filterMap.mpr ⟨t, ht, htag⟩
        obtain ⟨x, hx, hb⟩ := forall₂_mem_left hret ((h.mem_order hturn hpost).mp hmem)
        exact ⟨x, hx, (hblock hb ht htag p).mp hp⟩
    · rintro ⟨x, hx, hp⟩
      obtain ⟨b, -, hb⟩ := forall₂_mem_right hret hx
      have hmem : .item b ∈ sp.order e := hb.listed
      rw [← horder] at hmem
      obtain ⟨t, ht, htag⟩ := List.mem_filterMap.mp hmem
      refine ⟨t, ht, fun hfree => ?_, (hblock hb ht htag p).mpr hp⟩
      obtain ⟨g, hg⟩ := hfree
      rw [htag] at hg
      cases hg
  rw [← hcovered, hcap, htiles.gap_iff hcoalesced]
  constructor
  · rintro ⟨g, hg, rfl, rfl⟩
    rw [← horder] at hg
    obtain ⟨t, ht, htag⟩ := List.mem_filterMap.mp hg
    obtain ⟨h1, h2⟩ := Prod.mk.inj (hextent t ht _ htag)
    exact ⟨t, ht, ⟨g, htag⟩, h1.symm, by rw [Seg.stop, ← h1, ← h2]⟩
  · rintro ⟨t, ht, ⟨g, htag⟩, rfl, rfl⟩
    obtain ⟨h1, h2⟩ := Prod.mk.inj (hextent t ht _ htag)
    exact ⟨g, horder ▸ List.mem_filterMap.mpr ⟨t, ht, htag⟩, h1, by rw [Seg.stop, ← h2]⟩

end Load

/-! ## Two items -/

/-- The first device of a process that starts at 20. -/
theorem started_turn : ∃ m, AtTurn .plain 1 m ∧ m.space.current 1 = some 1 ∧ (m.now = 20 ∧ m.serverByPort 80 = some 0) ∧
    (m.space.device 1).capacity = 2 ^ 20 := by
  have hstart : (masterStep .plain (Process.boot 20).master (.reload LoadEnv.twoFiles (Conf.onDevices ["a"]))).map
      (fun m => (m.space.devices, m.space.current 1, (m.now, m.serverByPort 80), (m.space.device 1).capacity)) =
      some ([1], some 1, (20, some 0), 2 ^ 20) := by decide +kernel
  obtain ⟨m, hm, hstart⟩ := Option.map_eq_some_iff.mp hstart
  simp only [Prod.mk.injEq] at hstart
  exact ⟨m, ⟨20, _, _, m, [], [], fun _ => plainIo, fun _ _ => 0, fun _ _ => 0, hm, hstart.1, rfl⟩, hstart.2⟩

/-! ## The round trip -/

end Master

end OliveHc
