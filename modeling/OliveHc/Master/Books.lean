/-
The books of the servers.

A server counts its items, the bytes of their contents and of their blocks,
and its pass-by records, and its hash leads to the items that are not marked
and to the records. Which server an item belongs to is in the history: the
one it was stored or loaded on. So the books can be audited (`Ledger`), and
every step of the program keeps them right.
-/
import OliveHc.Master.Filing
import OliveHc.Master.Passby

namespace OliveHc

/-! ## Where an item belongs -/

/-- The happening with number `n`, of a history that is kept newest first. -/
def happened (n : Nat) : List Happening → Option Happening
  | [] => none
  | x :: log => if n = log.length then some x else happened n log

theorem happened_suffix {n : Nat} {log log' : List Happening} (hs : log <:+ log') (hn : n < log.length) :
    happened n log' = happened n log := by
  obtain ⟨l, rfl⟩ := hs
  induction l with
  | nil => rfl
  | cons x l ih =>
    have hne : n ≠ (l ++ log).length := by
      rw [List.length_append]
      omega
    rw [List.cons_append, happened, if_neg hne, ih]

/-- The server of an item that is stored or loaded. -/
def Happening.home : Happening → Option Nat
  | .created _ s _ _ | .loaded _ s _ _ => some s
  | _ => none

/-! ## The books of one server -/

def itemNode (item : Nat → Item) (a : Nat) : HashNode Entry := ⟨(item a).id, .item a⟩

def passbyNode (passby : Nat → Passby) (p : Nat) : HashNode Entry := ⟨(passby p).id, .passby p⟩

/-- What the hash of a server with the items `l` and the records `ps` is to
lead to. -/
def entries (l : List Nat) (item : Nat → Item) (ps : List Nat) (passby : Nat → Passby) : List (HashNode Entry) :=
  (l.filter fun a => !(item a).deleted).map (itemNode item) ++ ps.map (passbyNode passby)

/-- The server `y` with the items `l`, the pass-by records `ps` and the hash
`h` has its books in order. -/
structure Ledger (l : List Nat) (item : Nat → Item) (ps : List Nat) (passby : Nat → Passby) (y : Server) (h : Hash Entry) :
    Prop where
  items : l.Nodup
  passbys : ps.Nodup
  itemNr : y.itemNr = l.length
  content : y.content = (l.map fun a => (item a).length).sum
  consumed : y.consumed = (l.map fun a => ipbucketBlockSize (item a).length).sum
  passbyItemNr : y.passbyItemNr = ps.length
  hash : HashHolds h (entries l item ps passby)

section Entries

variable {l l' ps ps' : List Nat} {item item' : Nat → Item} {passby passby' : Nat → Passby} {a p : Nat} {n : HashNode Entry}

theorem itemNode_inj {b : Nat} (h : itemNode item a = itemNode item' b) : a = b := Entry.item.inj (HashNode.mk.inj h).2

theorem passbyNode_inj {q : Nat} (h : passbyNode passby p = passbyNode passby' q) : p = q :=
  Entry.passby.inj (HashNode.mk.inj h).2

theorem itemNode_ne_passbyNode : itemNode item a ≠ passbyNode passby p := fun h => nomatch (HashNode.mk.inj h).2

theorem mem_entries : n ∈ entries l item ps passby ↔
    (∃ a ∈ l, (item a).deleted = false ∧ itemNode item a = n) ∨ ∃ p ∈ ps, passbyNode passby p = n := by
  simp only [entries, List.mem_append, List.mem_map, List.mem_filter, Bool.not_eq_true', and_assoc]

theorem itemNode_mem : itemNode item a ∈ entries l item ps passby ↔ a ∈ l ∧ (item a).deleted = false := by
  rw [mem_entries]
  constructor
  · rintro (⟨b, hb, hdel, he⟩ | ⟨q, -, he⟩)
    · exact itemNode_inj he ▸ ⟨hb, hdel⟩
    · exact absurd he.symm itemNode_ne_passbyNode
  · rintro ⟨ha, hdel⟩
    exact .inl ⟨a, ha, hdel, rfl⟩

theorem passbyNode_mem : passbyNode passby p ∈ entries l item ps passby ↔ p ∈ ps := by
  rw [mem_entries]
  constructor
  · rintro (⟨b, -, -, he⟩ | ⟨q, hq, he⟩)
    · exact absurd he itemNode_ne_passbyNode
    · exact passbyNode_inj he ▸ hq
  · intro hp
    exact .inr ⟨p, hp, rfl⟩

theorem entries_nodup (hl : l.Nodup) (hps : ps.Nodup) : (entries l item ps passby).Nodup := by
  rw [entries, List.nodup_append]
  refine ⟨(hl.filter _).map fun _ _ h => itemNode_inj h, hps.map fun _ _ h => passbyNode_inj h, fun n hn k hk he => ?_⟩
  obtain ⟨a, -, rfl⟩ := List.mem_map.mp hn
  obtain ⟨p, -, rfl⟩ := List.mem_map.mp hk
  exact itemNode_ne_passbyNode he

/-- The same entries, if the same items are live under the same ids. -/
theorem mem_entries_congr (hl : ∀ a, a ∈ l' ↔ a ∈ l) (hps : ∀ p, p ∈ ps' ↔ p ∈ ps)
    (hitem : ∀ a ∈ l, (item' a).deleted = (item a).deleted ∧ (item' a).id = (item a).id)
    (hpass : ∀ p ∈ ps, (passby' p).id = (passby p).id) : n ∈ entries l' item' ps' passby' ↔ n ∈ entries l item ps passby := by
  have hnode : ∀ a ∈ l, itemNode item' a = itemNode item a := fun a ha => by rw [itemNode, (hitem a ha).2, itemNode]
  have hpnode : ∀ p ∈ ps, passbyNode passby' p = passbyNode passby p := fun p hp => by rw [passbyNode, hpass p hp, passbyNode]
  rw [mem_entries, mem_entries]
  constructor
  · rintro (⟨a, ha, hdel, rfl⟩ | ⟨p, hp, rfl⟩)
    · have ha := (hl a).mp ha
      exact .inl ⟨a, ha, (hitem a ha).1 ▸ hdel, (hnode a ha).symm⟩
    · have hp := (hps p).mp hp
      exact .inr ⟨p, hp, (hpnode p hp).symm⟩
  · rintro (⟨a, ha, hdel, rfl⟩ | ⟨p, hp, rfl⟩)
    · exact .inl ⟨a, (hl a).mpr ha, (hitem a ha).1.trans hdel, hnode a ha⟩
    · exact .inr ⟨p, (hps p).mpr hp, hpnode p hp⟩

end Entries

namespace Ledger

variable {l l' ps ps' : List Nat} {item item' : Nat → Item} {passby passby' : Nat → Passby} {y y' : Server}
  {h h' : Hash Entry} {a p : Nat}

/-- Nothing that is counted changes. -/
theorem congr (hL : Ledger l item ps passby y h) (hl : l'.Perm l) (hps : ps'.Perm ps)
    (hitem : ∀ a ∈ l, (item' a).length = (item a).length ∧ (item' a).deleted = (item a).deleted ∧ (item' a).id = (item a).id)
    (hpass : ∀ p ∈ ps, (passby' p).id = (passby p).id)
    (hy : y'.itemNr = y.itemNr ∧ y'.content = y.content ∧ y'.consumed = y.consumed ∧ y'.passbyItemNr = y.passbyItemNr)
    (hh : ∀ L, HashHolds h L → HashHolds h' L) : Ledger l' item' ps' passby' y' h' := by
  have hsum : ∀ f : Nat → Nat, (l'.map fun a => f (item' a).length).sum = (l.map fun a => f (item a).length).sum := by
    intro f
    rw [(hl.map _).sum_eq]
    exact congrArg List.sum (List.map_congr_left fun a ha => by rw [(hitem a ha).1])
  refine ⟨hl.nodup_iff.mpr hL.items, hps.nodup_iff.mpr hL.passbys, ?_, ?_, ?_, ?_, ?_⟩
  · rw [hy.1, hL.itemNr, hl.length_eq]
  · rw [hy.2.1, hL.content]
    exact (hsum id).symm
  · rw [hy.2.2.1, hL.consumed]
    exact (hsum ipbucketBlockSize).symm
  · rw [hy.2.2.2, hL.passbyItemNr, hps.length_eq]
  · refine (hh _ hL.hash).congr (entries_nodup (hl.nodup_iff.mpr hL.items) (hps.nodup_iff.mpr hL.passbys)) fun n => ?_
    exact mem_entries_congr (fun a => hl.mem_iff) (fun p => hps.mem_iff) (fun a ha => (hitem a ha).2) hpass

/-- The hash after the first deletion of item `a`. -/
def unhashed (item : Nat → Item) (a : Nat) (h : Hash Entry) : Hash Entry :=
  if (item a).deleted then h else hashDel h (itemNode item a)

theorem unhash (hL : Ledger l item ps passby y h) (ha : a ∈ l) : ∃ L, HashHolds (unhashed item a h) L ∧
    ∀ n, n ∈ L ↔ n ∈ entries l item ps passby ∧ n ≠ itemNode item a := by
  unfold unhashed
  split
  · next hdel =>
    refine ⟨_, hL.hash, fun n => ⟨fun hn => ⟨hn, fun he => ?_⟩, And.left⟩⟩
    rw [he, itemNode_mem] at hn
    exact absurd (hn.2.symm.trans hdel) (by decide)
  · next hdel =>
    have hdel : (item a).deleted = false := by simpa using hdel
    refine ⟨_, hL.hash.hashDel (itemNode_mem.mpr ⟨ha, hdel⟩), fun n => ?_⟩
    rw [List.mem_filter, decide_eq_true_eq]

/-- An item in use is marked. -/
theorem mark (hL : Ledger l item ps passby y h) (ha : a ∈ l) :
    Ledger l (Function.update item a { item a with deleted := true }) ps passby y (unhashed item a h) := by
  obtain ⟨L, hholds, hmem⟩ := hL.unhash ha
  have hother : ∀ b, b ≠ a → Function.update item a { item a with deleted := true } b = item b :=
    fun b hb => Function.update_of_ne hb ..
  have hlength : ∀ b, (Function.update item a { item a with deleted := true } b).length = (item b).length := by
    intro b
    by_cases hb : b = a
    · rw [hb, Function.update_self]
    · rw [hother b hb]
  refine ⟨hL.items, hL.passbys, hL.itemNr, ?_, ?_, hL.passbyItemNr, hholds.congr (entries_nodup hL.items hL.passbys) fun n => ?_⟩
  · simp only [hlength]
    exact hL.content
  · simp only [hlength]
    exact hL.consumed
  · rw [hmem, mem_entries, mem_entries]
    constructor
    · rintro (⟨b, hb, hdel, rfl⟩ | ⟨p, hp, rfl⟩)
      · have hba : b ≠ a := by
          intro hba
          rw [hba, Function.update_self] at hdel
          cases hdel
        have hnode : itemNode (Function.update item a { item a with deleted := true }) b = itemNode item b := by
          rw [itemNode, hother b hba, itemNode]
        rw [hother b hba] at hdel
        rw [hnode]
        exact ⟨.inl ⟨b, hb, hdel, rfl⟩, fun he => hba (itemNode_inj he)⟩
      · exact ⟨.inr ⟨p, hp, rfl⟩, itemNode_ne_passbyNode.symm⟩
    · rintro ⟨⟨b, hb, hdel, rfl⟩ | ⟨p, hp, rfl⟩, hne⟩
      · have hba : b ≠ a := fun hba => hne (by rw [hba])
        refine .inl ⟨b, hb, by rw [hother b hba]; exact hdel, ?_⟩
        rw [itemNode, hother b hba, itemNode]
      · exact .inr ⟨p, hp, rfl⟩

/-- An item goes, with what was counted for it. -/
theorem drop (hL : Ledger l item ps passby y h) (ha : a ∈ l) :
    Ledger (l.erase a) item ps passby { y with
      content := sizeSub y.content (item a).length
      consumed := sizeSub y.consumed (ipbucketBlockSize (item a).length)
      itemNr := y.itemNr - 1 } (unhashed item a h) := by
  obtain ⟨L, hholds, hmem⟩ := hL.unhash ha
  have hcount : ∀ {f : Nat → Nat} {x : Nat}, x = (l.map f).sum → sizeSub x (f a) = ((l.erase a).map f).sum := by
    intro f x hx
    have hsum := List.sum_map_erase f ha
    rw [sizeSub, if_pos (by omega)]
    omega
  refine ⟨hL.items.erase a, hL.passbys, ?_, hcount hL.content, hcount hL.consumed, hL.passbyItemNr,
    hholds.congr (entries_nodup (hL.items.erase a) hL.passbys) fun n => ?_⟩
  · have hpos := List.length_pos_of_mem ha
    show y.itemNr - 1 = _
    rw [hL.itemNr, List.length_erase_of_mem ha]
    omega
  · rw [hmem, mem_entries, mem_entries]
    simp only [hL.items.mem_erase_iff]
    constructor
    · rintro (⟨b, ⟨hba, hb⟩, hdel, rfl⟩ | ⟨p, hp, rfl⟩)
      · exact ⟨.inl ⟨b, hb, hdel, rfl⟩, fun he => hba (itemNode_inj he)⟩
      · exact ⟨.inr ⟨p, hp, rfl⟩, itemNode_ne_passbyNode.symm⟩
    · rintro ⟨⟨b, hb, hdel, rfl⟩ | ⟨p, hp, rfl⟩, hne⟩
      · exact .inl ⟨b, ⟨fun hba => hne (by rw [hba]), hb⟩, hdel, rfl⟩
      · exact .inr ⟨p, hp, rfl⟩

/-- An item comes, and is counted. -/
theorem insert (hL : Ledger l item ps passby y h) (callocOk : Bool) (ha : a ∉ l) (hdel : (item a).deleted = false) :
    Ledger (a :: l) item ps passby { y with
      consumed := y.consumed + ipbucketBlockSize (item a).length
      content := y.content + (item a).length
      itemNr := y.itemNr + 1 } (hashAdd callocOk h (itemNode item a)) := by
  have hfresh : itemNode item a ∉ entries l item ps passby := fun hm => ha (itemNode_mem.mp hm).1
  refine ⟨List.nodup_cons.mpr ⟨ha, hL.items⟩, hL.passbys, ?_, ?_, ?_, hL.passbyItemNr, ?_⟩
  · show y.itemNr + 1 = _
    rw [hL.itemNr, List.length_cons]
    omega
  · show y.content + _ = _
    rw [hL.content, List.map_cons, List.sum_cons, Nat.add_comm]
  · show y.consumed + _ = _
    rw [hL.consumed, List.map_cons, List.sum_cons, Nat.add_comm]
  · have hall := hL.hash.hashAdd callocOk hfresh
    rwa [entries, List.filter_cons_of_pos (by rw [hdel]; rfl)]

/-- A new record. -/
theorem insertPassby (hL : Ledger l item ps passby y h) (callocOk : Bool) (hp : p ∉ ps) :
    Ledger l item (p :: ps) passby { y with passbyItemNr := y.passbyItemNr + 1 } (hashAdd callocOk h (passbyNode passby p)) := by
  have hfresh : passbyNode passby p ∉ entries l item ps passby := fun hm => hp (passbyNode_mem.mp hm)
  have hnd := List.nodup_cons.mpr ⟨hp, hL.passbys⟩
  refine ⟨hL.items, hnd, hL.itemNr, hL.content, hL.consumed, ?_,
    (hL.hash.hashAdd callocOk hfresh).congr (entries_nodup hL.items hnd) fun n => ?_⟩
  · show y.passbyItemNr + 1 = _
    rw [hL.passbyItemNr, List.length_cons]
    omega
  · rw [List.mem_cons, mem_entries, mem_entries, List.exists_mem_cons_iff, eq_comm (a := n)]
    exact or_left_comm

/-- A record that is given up. -/
theorem dropPassby (hL : Ledger l item ps passby y h) (hp : p ∈ ps) :
    Ledger l item (ps.erase p) passby { y with passbyItemNr := y.passbyItemNr - 1 } (hashDel h (passbyNode passby p)) := by
  have hnd := hL.passbys.erase p
  refine ⟨hL.items, hnd, hL.itemNr, hL.content, hL.consumed, ?_,
    (hL.hash.hashDel (passbyNode_mem.mpr hp)).congr (entries_nodup hL.items hnd) fun n => ?_⟩
  · have hpos := List.length_pos_of_mem hp
    show y.passbyItemNr - 1 = _
    rw [hL.passbyItemNr, List.length_erase_of_mem hp]
    omega
  · rw [List.mem_filter, decide_eq_true_eq, mem_entries, mem_entries]
    simp only [hL.passbys.mem_erase_iff]
    constructor
    · rintro (⟨b, hb, hdel, rfl⟩ | ⟨q, ⟨hqp, hq⟩, rfl⟩)
      · exact ⟨.inl ⟨b, hb, hdel, rfl⟩, itemNode_ne_passbyNode⟩
      · exact ⟨.inr ⟨q, hq, rfl⟩, fun he => hqp (passbyNode_inj he)⟩
    · rintro ⟨⟨b, hb, hdel, rfl⟩ | ⟨q, hq, rfl⟩, hne⟩
      · exact .inl ⟨b, hb, hdel, rfl⟩
      · exact .inr ⟨q, ⟨fun hqp => hne (by rw [hqp]), hq⟩, rfl⟩

end Ledger

namespace Master

/-! ## The books of all servers -/

/-- The server that item `a` was stored or loaded on. -/
def home (a : Nat) (m : Master) : Option Nat := (happened (m.number a) m.log).bind Happening.home

/-- The items of server `s`. -/
def itemsOf (s : Nat) (m : Master) : List Nat := m.space.items.filter fun a => m.home a = some s

theorem mem_itemsOf {s a : Nat} {m : Master} : a ∈ m.itemsOf s ↔ a ∈ m.space.items ∧ m.home a = some s := by
  rw [itemsOf, List.mem_filter, decide_eq_true_eq]

/-- Every item belongs to a server, and every server has its books in order. -/
structure Booked (m : Master) : Prop where
  nodup : m.space.items.Nodup
  bound : ∀ a ∈ m.space.items, m.number a < m.log.length
  home : ∀ a ∈ m.space.items, ∃ s ∈ m.allServers, m.home a = some s ∧ (m.space.item a).serverIndex = (m.server s).index
  listed : ∀ s, ∀ a ∈ m.lru (some s), a ∈ m.space.items → m.home a = some s
  ledger : ∀ s ∈ m.allServers, Ledger (m.itemsOf s) m.space.item (m.passbyLru s) m.passby (m.server s) (m.hash s)

namespace Booked

variable {rt : Runtime} {m m' : Master} {s a p : Nat}

/-- An item has its home for good. -/
theorem home_eq (h : Booked m) (hlog : m.log <:+ m'.log) (ha : a ∈ m.space.items) (hn : m'.number a = m.number a) :
    m'.home a = m.home a := by
  rw [Master.home, Master.home, hn, happened_suffix hlog (h.bound a ha)]

/-- The items of a server, when the items are the same. -/
theorem itemsOf_eq (h : Booked m) (hlog : m.log <:+ m'.log) (hitems : m'.space.items = m.space.items)
    (hn : ∀ a ∈ m.space.items, m'.number a = m.number a) (s : Nat) : m'.itemsOf s = m.itemsOf s := by
  rw [Master.itemsOf, hitems, Master.itemsOf]
  exact List.filter_congr fun a ha => by rw [h.home_eq hlog ha (hn a ha)]

/-- What of a server is in its books. -/
def SameBooks (y y' : Server) : Prop :=
  y'.index = y.index ∧ y'.itemNr = y.itemNr ∧ y'.content = y.content ∧ y'.consumed = y.consumed ∧
    y'.passbyItemNr = y.passbyItemNr

/-- What of an item is in the books. -/
def SameEntry (x x' : Item) : Prop :=
  x'.length = x.length ∧ x'.deleted = x.deleted ∧ x'.id = x.id ∧ x'.serverIndex = x.serverIndex

/-- Nothing that is counted changes. -/
theorem frame (h : Booked m) (hlog : m.log <:+ m'.log) (hnumber : m'.number = m.number)
    (hitems : m'.space.items = m.space.items)
    (hitem : ∀ a ∈ m.space.items, SameEntry (m.space.item a) (m'.space.item a)) (hlru : ∀ l, ∀ a ∈ m'.lru l, a ∈ m.lru l)
    (hall : ∀ s, s ∈ m'.allServers ↔ s ∈ m.allServers) (hserver : ∀ s, SameBooks (m.server s) (m'.server s))
    (hps : ∀ s, (m'.passbyLru s).Perm (m.passbyLru s)) (hpass : m'.passby = m.passby)
    (hhash : ∀ s L, HashHolds (m.hash s) L → HashHolds (m'.hash s) L) : Booked m' := by
  have hn : ∀ a ∈ m.space.items, m'.number a = m.number a := fun a _ => by rw [hnumber]
  refine ⟨hitems ▸ h.nodup, fun a ha => ?_, fun a ha => ?_, fun s a hl ha => ?_, fun s hs => ?_⟩
  · rw [hnumber]
    exact (h.bound a (hitems ▸ ha)).trans_le hlog.length_le
  · have ha := hitems ▸ ha
    obtain ⟨s, hs, hhome, hidx⟩ := h.home a ha
    exact ⟨s, (hall s).mpr hs, (h.home_eq hlog ha (hn a ha)).trans hhome,
      ((hitem a ha).2.2.2.trans hidx).trans (hserver s).1.symm⟩
  · have ha := hitems ▸ ha
    exact (h.home_eq hlog ha (hn a ha)).trans (h.listed s a (hlru _ a hl) ha)
  · refine (h.ledger s ((hall s).mp hs)).congr (by rw [h.itemsOf_eq hlog hitems hn]) (hps s) (fun a ha => ?_)
      (fun _ _ => by rw [hpass]) (hserver s).2 (hhash s)
    obtain ⟨h1, h2, h3, -⟩ := hitem a (mem_itemsOf.mp ha).1
    exact ⟨h1, h2, h3⟩

/-- Only what is in no book changes. -/
theorem same (h : Booked m) (hlog : m.log <:+ m'.log) (hnumber : m'.number = m.number) (hsp : ItemsSame m.space m'.space)
    (hlru : m'.lru = m.lru) (hall : m'.allServers = m.allServers) (hserver : ∀ s, SameBooks (m.server s) (m'.server s))
    (hps : m'.passbyLru = m.passbyLru) (hpass : m'.passby = m.passby) (hhash : m'.hash = m.hash) : Booked m' :=
  h.frame hlog hnumber hsp.items (fun a _ => by rw [hsp.item]; exact ⟨rfl, rfl, rfl, rfl⟩) (fun _ _ ha => hlru ▸ ha)
    (fun s => by rw [hall]) hserver
    (fun s => by rw [hps]) hpass fun s L hL => by rw [hhash]; exact hL

theorem sameBooks_refl (y : Server) : SameBooks y y := ⟨rfl, rfl, rfl, rfl, rfl⟩

theorem sameBooks_update {f : Nat → Server} {y : Server} (hy : SameBooks (f s) y) (x : Nat) :
    SameBooks (f x) (Function.update f s y x) := by
  by_cases hx : x = s
  · rw [hx, Function.update_self]
    exact hy
  · rw [Function.update_of_ne hx]
    exact sameBooks_refl _

theorem space {sp : Space} (h : Booked m) (hsp : ItemsSame m.space sp) : Booked { m with space := sp } :=
  h.same (List.suffix_refl _) rfl hsp rfl rfl (fun _ => sameBooks_refl _) rfl rfl rfl

theorem note {x : Happening} (h : Booked m) : Booked (m.note x) :=
  h.same (List.suffix_cons ..) rfl ⟨rfl, rfl⟩ rfl rfl (fun _ => sameBooks_refl _) rfl rfl rfl

/-- The flags of an item that are in no book. -/
theorem setItem {x : Item} (h : Booked m) (hx : SameEntry (m.space.item a) x) : Booked (m.setItem a x) := by
  refine h.frame (List.suffix_refl _) rfl rfl (fun b _ => ?_) (fun _ _ hl => hl) (fun _ => Iff.rfl) (fun _ => sameBooks_refl _)
    (fun _ => .refl _) rfl fun _ _ hL => hL
  show SameEntry _ (Function.update m.space.item a x b)
  by_cases hb : b = a
  · rw [hb, Function.update_self]
    exact hx
  · rw [Function.update_of_ne hb]
    exact ⟨rfl, rfl, rfl, rfl⟩

/-- An item comes to the head of a list of its server. -/
theorem touch (h : Booked m) (ha : m.home a = some s) : Booked ((m.lruDel a).lruAdd a (m.serverLruHead s)) := by
  refine ⟨h.nodup, h.bound, h.home, fun x b hl hb => ?_, h.ledger⟩
  rcases Filed.mem_lruAdd hl with ⟨rfl, hx⟩ | hl
  · rw [Filed.serverLruHead_eq hx.symm]
    exact ha
  · exact h.listed x b (List.mem_of_mem_erase hl) hb

/-! ## Deleting an item -/

/-- The server that the index of an item leads to is its home. -/
theorem serverOfItem_eq (h : Booked m) (ht : TableInv m) (ha : a ∈ m.space.items) (hs : m.serverOfItem a = some s) :
    s ∈ m.allServers ∧ m.home a = some s := by
  obtain ⟨x, hx, hhome, hidx⟩ := h.home a ha
  rw [serverOfItem, hidx] at hs
  obtain rfl := ht.eq_of_get hx hs
  exact ⟨hx, hhome⟩

theorem unhash_hash (x : Nat) : (m.unhash s a).hash x =
    if x = s then Ledger.unhashed m.space.item a (m.hash x) else m.hash x := by
  unfold unhash Ledger.unhashed
  split
  · split <;> rfl
  · show Function.update m.hash s _ x = _
    by_cases hx : x = s
    · subst hx
      rw [Function.update_self, if_pos rfl]
      rfl
    · rw [Function.update_of_ne hx, if_neg hx]

theorem marked (h : Booked m) (ht : TableInv m) (ha : a ∈ m.space.items) (hs : m.serverOfItem a = some s) :
    Booked ((m.unhash s a).setItem a { m.space.item a with deleted := true }) := by
  obtain ⟨hmem, hhome⟩ := h.serverOfItem_eq ht ha hs
  generalize hm' : (m.unhash s a).setItem a { m.space.item a with deleted := true } = m'
  have hm : m' = { m with
      hash := (m.unhash s a).hash, space := m.space.setItem a { m.space.item a with deleted := true } } := by
    rw [← hm', unhash_eq]
    rfl
  have hitem : m'.space.item = Function.update m.space.item a { m.space.item a with deleted := true } := by rw [hm]; rfl
  have hof : ∀ x, m'.itemsOf x = m.itemsOf x := by
    rw [hm]
    exact fun x => rfl
  have hsi : ∀ b, (m'.space.item b).serverIndex = (m.space.item b).serverIndex := by
    intro b
    rw [hitem]
    by_cases hb : b = a
    · rw [hb, Function.update_self]
    · rw [Function.update_of_ne hb]
  refine ⟨by rw [hm]; exact h.nodup, by rw [hm]; exact h.bound, fun b hb => ?_, by rw [hm]; exact h.listed, fun x hx => ?_⟩
  · rw [hm] at hb
    obtain ⟨x, hx, hhx, hidx⟩ := h.home b hb
    rw [hsi, hm]
    exact ⟨x, hx, hhx, hidx⟩
  have hx : x ∈ m.allServers := by
    rw [hm] at hx
    exact hx
  have hL := h.ledger x hx
  have hhash : m'.hash x = if x = s then Ledger.unhashed m.space.item a (m.hash x) else m.hash x := by
    rw [hm]
    exact unhash_hash x
  have hrest : m'.passbyLru = m.passbyLru ∧ m'.passby = m.passby ∧ m'.server = m.server := by
    rw [hm]
    exact ⟨rfl, rfl, rfl⟩
  rw [hof, hitem, hrest.1, hrest.2.1, hrest.2.2, hhash]
  by_cases hxs : x = s
  · subst hxs
    rw [if_pos rfl]
    exact hL.mark (mem_itemsOf.mpr ⟨ha, hhome⟩)
  · rw [if_neg hxs]
    refine hL.congr (.refl _) (.refl _) (fun b hb => ?_) (fun _ _ => rfl) ⟨rfl, rfl, rfl, rfl⟩ fun _ hL => hL
    -- The item is none of this server's.
    have hba : b ≠ a := by
      rintro rfl
      exact hxs (Option.some.inj ((mem_itemsOf.mp hb).2.symm.trans hhome))
    rw [Function.update_of_ne hba]
    exact ⟨rfl, rfl, rfl⟩

/-- What `device_return_free_block` returns. -/
theorem returnFreeBlock_size {al : Allocator} {sp sp' : Space} {k : Nat}
    (hr : sp.deviceReturnFreeBlock al a = some (k, sp')) : k = ipbucketBlockSize (sp.item a).length := by
  unfold Space.deviceReturnFreeBlock at hr
  obtain ⟨d, -, hr⟩ := Option.bind_eq_some_iff.mp hr
  simp only at hr
  split at hr
  · cases hr
    rfl
  split at hr
  · cases hr
    rfl
  · obtain ⟨s₁, -, hr⟩ := Option.bind_eq_some_iff.mp hr
    cases hr
    rfl

theorem dropped {sp : Space} {k : Nat} (h : Booked m) (ht : TableInv m) (ha : a ∈ m.space.items)
    (hs : m.serverOfItem a = some s) (hr : m.space.deviceReturnFreeBlock rt.al a = some (k, sp)) :
    Booked (m.dropItem s a k sp) := by
  obtain ⟨hmem, hhome⟩ := h.serverOfItem_eq ht ha hs
  have hsame := ItemsSame.returnFreeBlock hr
  have hk := returnFreeBlock_size hr
  subst hk
  generalize hm' : m.dropItem s a (ipbucketBlockSize (m.space.item a).length) sp = m'
  have hm : m' = { m with
      hash := (m.unhash s a).hash, lru := fun l => (m.lru l).erase a, space := sp.itemFree a
      server := Function.update m.server s { m.server s with
        content := sizeSub (m.server s).content (m.space.item a).length
        consumed := sizeSub (m.server s).consumed (ipbucketBlockSize (m.space.item a).length)
        itemNr := (m.server s).itemNr - 1 } } := by
    rw [← hm', dropItem, unhash_eq]
    rfl
  have hitems : m'.space.items = m.space.items.erase a := by
    rw [hm, h.nodup.erase_eq_filter, ← hsame.items]
    exact List.filter_congr fun b _ => by simp only [bne, beq_eq_decide, ne_eq, decide_not]
  have hitem : m'.space.item = m.space.item := by
    rw [hm, ← hsame.item]
    rfl
  have hof : ∀ x, m'.itemsOf x = (m.itemsOf x).erase a := by
    intro x
    have hfilter : m'.itemsOf x = (m.space.items.erase a).filter fun b => m.home b = some x := by
      rw [itemsOf, hitems, hm]
      rfl
    rw [hfilter, itemsOf, List.erase_filter]
  have hmem' : ∀ b ∈ m'.space.items, b ∈ m.space.items := fun b hb => List.mem_of_mem_erase (hitems ▸ hb)
  refine ⟨hitems ▸ h.nodup.erase a, fun b hb => ?_, fun b hb => ?_, fun x b hl hb => ?_, fun x hx => ?_⟩
  · have hlt := h.bound b (hmem' b hb)
    rw [hm]
    exact hlt
  · obtain ⟨x, hx, hhx, hidx⟩ := h.home b (hmem' b hb)
    have hindex : (m'.server x).index = (m.server x).index := by
      rw [hm]
      show (Function.update m.server s _ x).index = _
      by_cases hxs : x = s
      · rw [hxs, Function.update_self]
      · rw [Function.update_of_ne hxs]
    refine ⟨x, ?_, ?_, by rw [hitem, hindex]; exact hidx⟩
    · rw [hm]
      exact hx
    · rw [hm]
      exact hhx
  · have hb := hmem' b hb
    rw [hm] at hl ⊢
    exact h.listed x b (List.mem_of_mem_erase hl) hb
  have hx : x ∈ m.allServers := by
    rw [hm] at hx
    exact hx
  have hL := h.ledger x hx
  have hhash : m'.hash x = if x = s then Ledger.unhashed m.space.item a (m.hash x) else m.hash x := by
    rw [hm]
    exact unhash_hash x
  have hrest : m'.passbyLru = m.passbyLru ∧ m'.passby = m.passby := by
    rw [hm]
    exact ⟨rfl, rfl⟩
  rw [hof, hitem, hrest.1, hrest.2, hhash]
  by_cases hxs : x = s
  · subst hxs
    have hserver : m'.server x = { m.server x with
        content := sizeSub (m.server x).content (m.space.item a).length
        consumed := sizeSub (m.server x).consumed (ipbucketBlockSize (m.space.item a).length)
        itemNr := (m.server x).itemNr - 1 } := by
      rw [hm]
      exact Function.update_self ..
    rw [if_pos rfl, hserver]
    exact hL.drop (mem_itemsOf.mpr ⟨ha, hhome⟩)
  · have hserver : m'.server x = m.server x := by
      rw [hm]
      exact Function.update_of_ne hxs ..
    have hnot : a ∉ m.itemsOf x := fun hax => hxs (Option.some.inj ((mem_itemsOf.mp hax).2.symm.trans hhome))
    rw [if_neg hxs, hserver, List.erase_of_not_mem hnot]
    exact hL

/-- **`server_item_delete`.** -/
theorem serverItemDelete (h : Booked m) (ht : TableInv m) (hd : m.serverItemDelete rt a = some m') : Booked m' := by
  cases serverItemDelete_cases hd with
  | marked ha hs => exact h.marked ht ha hs
  | freed ha hs _ hr => exact h.dropped ht ha hs hr

/-! ## Records -/

/-- Something of server `s` changes: its books, its hash, its records. -/
theorem setBooks {y : Server} {hash : Hash Entry} {ps : List Nat} {passby : Nat → Passby} (h : Booked m)
    (hlog : m'.log = m.log) (hnumber : m'.number = m.number) (hspace : m'.space = m.space) (hlru : m'.lru = m.lru)
    (hall : m'.allServers = m.allServers) (hserver : m'.server = Function.update m.server s y) (hhash : m'.hash = Function.update m.hash s hash)
    (hps : m'.passbyLru = Function.update m.passbyLru s ps) (hpass : m'.passby = passby) (hidx : y.index = (m.server s).index)
    (hother : ∀ x ∈ m.allServers, x ≠ s → ∀ p ∈ m.passbyLru x, (passby p).id = (m.passby p).id)
    (hL : s ∈ m.allServers → Ledger (m.itemsOf s) m.space.item ps passby y hash) : Booked m' := by
  have hhome : ∀ b, m'.home b = m.home b := fun b => by rw [Master.home, Master.home, hnumber, hlog]
  have hof : ∀ x, m'.itemsOf x = m.itemsOf x := by
    intro x
    rw [itemsOf, hspace, itemsOf]
    exact List.filter_congr fun b _ => by rw [hhome]
  refine ⟨hspace ▸ h.nodup, fun b hb => ?_, fun b hb => ?_, fun x b hl hb => ?_, fun x hx => ?_⟩
  · rw [hnumber, hlog]
    exact h.bound b (hspace ▸ hb)
  · obtain ⟨x, hx, hhx, hi⟩ := h.home b (hspace ▸ hb)
    refine ⟨x, hall ▸ hx, (hhome b).trans hhx, ?_⟩
    rw [hspace, hi, hserver]
    by_cases hxs : x = s
    · rw [hxs, Function.update_self, hidx]
    · rw [Function.update_of_ne hxs]
  · exact (hhome b).trans (h.listed x b (hlru ▸ hl) (hspace ▸ hb))
  · rw [hof, hspace, hps, hpass, hserver, hhash]
    by_cases hxs : x = s
    · subst hxs
      rw [Function.update_self, Function.update_self, Function.update_self]
      exact hL (hall ▸ hx)
    · rw [Function.update_of_ne hxs, Function.update_of_ne hxs, Function.update_of_ne hxs]
      exact (h.ledger x (hall ▸ hx)).congr (.refl _) (.refl _) (fun _ _ => ⟨rfl, rfl, rfl⟩) (hother x (hall ▸ hx) hxs)
        ⟨rfl, rfl, rfl, rfl⟩ fun _ hL => hL

theorem passbyItemDelete (h : Booked m) (hp : p ∈ m.passbyLru s) : Booked (m.serverPassbyItemDelete s p) :=
  h.setBooks rfl rfl rfl rfl rfl rfl rfl rfl rfl rfl (fun _ _ _ _ _ => rfl) fun hs => (h.ledger s hs).dropPassby hp

theorem expirePassbys {l : List Nat} {count : Nat} (h : Booked m) (hl : l.Nodup) (hmem : ∀ p ∈ l, p ∈ m.passbyLru s) :
    Booked (m.expirePassbys s count l) := by
  induction l generalizing m count with
  | nil => exact h
  | cons p l ih =>
    have hp := hmem p List.mem_cons_self
    unfold Master.expirePassbys
    simp only
    split
    · exact h
    · split
      · exact h.passbyItemDelete hp
      · refine ih (h.passbyItemDelete hp) (List.nodup_cons.mp hl).2 fun q hq => ?_
        have hqp : q ≠ p := fun he => (List.nodup_cons.mp hl).1 (he ▸ hq)
        show q ∈ Function.update m.passbyLru s _ s
        rw [Function.update_self]
        exact (List.mem_erase_of_ne hqp).mpr (hmem q (List.mem_cons_of_mem p hq))

/-- **A new record**, at an address where there is none. -/
theorem passbyStore {id : HashId} {ok : Bool} (h : Booked m) (hown : Owned m.passbyLru m.passbys)
    (hp : m.serverPassbyStore rt s id = (ok, m')) : Booked m' := by
  unfold serverPassbyStore at hp
  simp only at hp
  split at hp
  · cases hp
    exact h
  split at hp
  · cases hp
    exact h.same (List.suffix_refl _) rfl ⟨rfl, rfl⟩ rfl rfl (fun _ => sameBooks_refl _) rfl rfl rfl
  next p hget =>
  cases hp
  have hfresh : ∀ x, p ∉ m.passbyLru x := fun x hx => rt.al.fresh hget ((hown.covers p).mpr ⟨x, hx⟩)
  have hother : ∀ x, ∀ q ∈ m.passbyLru x,
      (Function.update m.passby p ⟨id, m.now + (m.server s).conf.passbyExpire⟩ q).id = (m.passby q).id := by
    intro x q hq
    have hqp : q ≠ p := fun he => hfresh x (he ▸ hq)
    rw [Function.update_of_ne hqp]
  refine h.setBooks rfl rfl rfl rfl rfl rfl rfl rfl rfl rfl (fun x _ _ => hother x) fun hs => ?_
  have hL := (h.ledger s hs).congr (.refl _) (.refl _) (fun _ _ => ⟨rfl, rfl, rfl⟩) (hother s) ⟨rfl, rfl, rfl, rfl⟩ fun _ hL => hL
  have hnew := hL.insertPassby (rt.calloc (m.calls + 1)) (hfresh s)
  rw [passbyNode, Function.update_self] at hnew
  exact hnew

/-- A GET brings a record to the front. -/
theorem front (h : Booked m) (hp : p ∈ m.passbyLru s) :
    Booked { m with passbyLru := Function.update m.passbyLru s (p :: (m.passbyLru s).erase p) } := by
  refine h.frame (List.suffix_refl _) rfl rfl (fun _ _ => ⟨rfl, rfl, rfl, rfl⟩) (fun _ _ hl => hl) (fun _ => Iff.rfl) (fun _ => sameBooks_refl _)
    (fun x => ?_) rfl fun _ _ hL => hL
  show (Function.update m.passbyLru s _ x).Perm _
  by_cases hx : x = s
  · subst hx
    rw [Function.update_self]
    exact (List.perm_cons_erase hp).symm
  · rw [Function.update_of_ne hx]

theorem lookup (h : Booked m) (s : Nat) (key : List UInt8) : Booked (m.lookup rt s key).2 := by
  refine h.frame (List.suffix_refl _) rfl rfl (fun _ _ => ⟨rfl, rfl, rfl, rfl⟩) (fun _ _ hl => hl) (fun _ => Iff.rfl) (fun _ => sameBooks_refl _)
    (fun _ => .refl _) rfl fun x L hL => ?_
  show HashHolds (Function.update m.hash s _ x) L
  by_cases hx : x = s
  · subst hx
    rw [Function.update_self]
    exact (hL.hashGet rt.md5 _ key).1
  · rwa [Function.update_of_ne hx]

/-! ## A new item -/

/-- Item `a` is stored or loaded on server `s`. -/
theorem insert {x : Happening} {c : Bool} (h : Booked m) (ha : a ∉ m.space.items) (hs : s ∈ m.allServers)
    (habsent : Absent a m) (hlru : m'.lru = Function.update m.lru (m.serverLruHead s) (a :: m.lru (m.serverLruHead s)))
    (hitems : m'.space.items = a :: m.space.items) (hitem : ∀ b, b ≠ a → m'.space.item b = m.space.item b)
    (hdel : (m'.space.item a).deleted = false) (hsi : (m'.space.item a).serverIndex = (m.server s).index)
    (hlog : m'.log = x :: m.log) (hx : x.home = some s) (hnumber : m'.number = Function.update m.number a m.log.length)
    (hall : m'.allServers = m.allServers)
    (hserver : m'.server = Function.update m.server s { m.server s with
      consumed := (m.server s).consumed + ipbucketBlockSize (m'.space.item a).length
      content := (m.server s).content + (m'.space.item a).length
      itemNr := (m.server s).itemNr + 1 })
    (hhash : m'.hash = Function.update m.hash s (hashAdd c (m.hash s) (itemNode m'.space.item a)))
    (hps : m'.passbyLru = m.passbyLru) (hpass : m'.passby = m.passby) : Booked m' := by
  have hne : ∀ b ∈ m.space.items, b ≠ a := fun b hb he => ha (he ▸ hb)
  have hn : ∀ b ∈ m.space.items, m'.number b = m.number b := fun b hb => by rw [hnumber, Function.update_of_ne (hne b hb)]
  have hsuf : m.log <:+ m'.log := hlog ▸ List.suffix_cons ..
  have hself : m'.home a = some s := by
    rw [Master.home, hnumber, Function.update_self, hlog, happened, if_pos rfl]
    exact hx
  have hhome : ∀ b ∈ m.space.items, m'.home b = m.home b := fun b hb => h.home_eq hsuf hb (hn b hb)
  have hof : ∀ y, m'.itemsOf y = if y = s then a :: m.itemsOf y else m.itemsOf y := by
    intro y
    have hrest : m.space.items.filter (fun b => m'.home b = some y) = m.itemsOf y :=
      List.filter_congr fun b hb => by rw [hhome b hb]
    rw [itemsOf, hitems, List.filter_cons, hself, hrest]
    by_cases hy : y = s
    · rw [if_pos hy, if_pos (decide_eq_true (congrArg some hy.symm))]
    · rw [if_neg hy, if_neg fun hd => hy (Option.some.inj (of_decide_eq_true hd)).symm]
  have hindex : ∀ y, (m'.server y).index = (m.server y).index := by
    intro y
    rw [hserver]
    by_cases hy : y = s
    · rw [hy, Function.update_self]
    · rw [Function.update_of_ne hy]
  refine ⟨hitems ▸ List.nodup_cons.mpr ⟨ha, h.nodup⟩, fun b hb => ?_, fun b hb => ?_, fun y b hl hb => ?_, fun y hy => ?_⟩
  · rw [hlog, List.length_cons]
    rcases List.mem_cons.mp (hitems ▸ hb) with rfl | hb
    · rw [hnumber, Function.update_self]
      exact Nat.lt_succ_self _
    · rw [hn b hb]
      exact Nat.lt_succ_of_lt (h.bound b hb)
  · rcases List.mem_cons.mp (hitems ▸ hb) with rfl | hb
    · exact ⟨s, hall ▸ hs, hself, hsi.trans (hindex s).symm⟩
    · obtain ⟨y, hy, hhy, hi⟩ := h.home b hb
      refine ⟨y, hall ▸ hy, (hhome b hb).trans hhy, ?_⟩
      rw [hitem b (hne b hb), hindex, hi]
  · rw [hlru] at hl
    rcases Filed.mem_lruAdd hl with ⟨rfl, hy⟩ | hl
    · rw [hself, Filed.serverLruHead_eq hy.symm]
    · have hb : b ∈ m.space.items := (List.mem_cons.mp (hitems ▸ hb)).resolve_left fun he => habsent _ (he ▸ hl)
      exact (hhome b hb).trans (h.listed y b hl hb)
  · have hL : Ledger (m.itemsOf y) m'.space.item (m.passbyLru y) m.passby (m.server y) (m.hash y) :=
      (h.ledger y (hall ▸ hy)).congr (.refl _) (.refl _) (fun b hb => by
        rw [hitem b (hne b (mem_itemsOf.mp hb).1)]
        exact ⟨rfl, rfl, rfl⟩) (fun _ _ => rfl) ⟨rfl, rfl, rfl, rfl⟩ fun _ hL => hL
    rw [hof, hps, hpass, hserver, hhash]
    by_cases hys : y = s
    · subst hys
      rw [if_pos rfl, Function.update_self, Function.update_self]
      exact hL.insert c (fun hm => ha (mem_itemsOf.mp hm).1) hdel
    · rw [if_neg hys, Function.update_of_ne hys, Function.update_of_ne hys]
      exact hL

end Booked

end Master

end OliveHc
