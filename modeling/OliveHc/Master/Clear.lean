/-
`server_clear`.

A server is cleared by one step of its 16 bit generation, and an item is
valid only in the generation it was stored in. So the generation of an item
tells how often its server was cleared before it was stored, and that of the
server how often it was cleared at all, but only modulo 65536: after so many
clears the items of the first generation are valid again.
-/
import OliveHc.Master.Audit
import OliveHc.Master.Lives

namespace OliveHc

/-- How often server `s` was cleared since number `n` was given. -/
def clearsSince (s n : Nat) (log : List Happening) : Nat := (log.take (log.length - n)).count (.cleared s)

theorem clearsSince_self (s : Nat) (log : List Happening) : clearsSince s log.length log = 0 := by
  rw [clearsSince, Nat.sub_self, List.take_zero, List.count_nil]

theorem clearsSince_append {s n : Nat} {l log : List Happening} (hn : n ≤ log.length) :
    clearsSince s n (l ++ log) = l.count (.cleared s) + clearsSince s n log := by
  rw [clearsSince, List.length_append, Nat.add_sub_assoc hn, List.take_length_add_append, List.count_append, clearsSince]

theorem happened_lt {n : Nat} {log : List Happening} (h : (happened n log).isSome) : n < log.length := by
  induction log with
  | nil => cases h
  | cons x log ih =>
    rw [happened] at h
    rw [List.length_cons]
    split at h
    · next he => omega
    · exact Nat.lt_succ_of_lt (ih h)

namespace Master

/-! ## Steps without a new item -/

/-- No item is new, and no server is cleared. -/
structure Calm (m m' : Master) : Prop where
  framed : Framed m m'
  number : m'.number = m.number
  log : ∃ l, m'.log = l ++ m.log ∧ ∀ x ∈ l, ∀ s, x ≠ .cleared s
  item : ∀ a ∈ m'.space.items, a ∈ m.space.items ∧ (m.space.item a).Same (m'.space.item a)
  hash : ∀ s id a, (m'.hash s).Has ⟨id, .item a⟩ → (m.hash s).Has ⟨id, .item a⟩

namespace Calm

variable {rt : Runtime} {m m' m'' : Master} {s a : Nat}

theorem trans (h : Calm m m') (h' : Calm m' m'') : Calm m m'' := by
  obtain ⟨l, hl, hx⟩ := h.log
  obtain ⟨l', hl', hx'⟩ := h'.log
  refine ⟨h.framed.trans h'.framed, h'.number.trans h.number, ⟨l' ++ l, ?_, fun x hmem => ?_⟩, fun a ha => ?_,
    fun s id a hh => h.hash s id a (h'.hash s id a hh)⟩
  · rw [hl', hl, List.append_assoc]
  · exact (List.mem_append.mp hmem).elim (hx' x) (hx x)
  · obtain ⟨ha, hs'⟩ := h'.item a ha
    obtain ⟨ha, hs⟩ := h.item a ha
    exact ⟨ha, hs.trans hs'⟩

/-- Nothing of it changes. -/
theorem rest (hf : Framed m m') (hsp : ItemsSame m.space m'.space) (hn : m'.number = m.number) (hlog : m'.log = m.log)
    (hh : ∀ s id a, (m'.hash s).Has ⟨id, .item a⟩ → (m.hash s).Has ⟨id, .item a⟩) : Calm m m' :=
  ⟨hf, hn, ⟨[], hlog, nofun⟩, fun a ha => ⟨hsp.items ▸ ha, by rw [hsp.item]; exact .refl _⟩, hh⟩

theorem refl (m : Master) : Calm m m := rest (.refl m) (.refl _) rfl rfl fun _ _ _ hh => hh

theorem evicted (h : Evicted m m') : Calm m m' := by
  refine ⟨.evicted h, h.number, ⟨[], h.log, nofun⟩, fun a ha => ⟨h.items.subset ha, ?_⟩, fun s id a hh => h.hash s _ hh⟩
  obtain ⟨x, hx, -⟩ := h.item a
  exact ⟨_, x, _, _, hx⟩

theorem note {x : Happening} (hx : ∀ s, x ≠ .cleared s) : Calm m (m.note x) :=
  ⟨(Framed.refl m).note, rfl, ⟨[x], rfl, fun _ hy => List.mem_singleton.mp hy ▸ hx⟩, fun _ ha => ⟨ha, .refl _⟩,
    fun _ _ _ hh => hh⟩

theorem setItem {x : Item} (hx : (m.space.item a).Same x) : Calm m (m.setItem a x) := by
  refine ⟨.rest rfl rfl rfl rfl rfl rfl rfl rfl, rfl, ⟨[], rfl, nofun⟩, fun b hb => ⟨hb, ?_⟩, fun _ _ _ hh => hh⟩
  show (m.space.item b).Same (Function.update m.space.item a x b)
  by_cases hb : b = a
  · rw [hb, Function.update_self]
    exact hx
  · rw [Function.update_of_ne hb]
    exact .refl _

theorem lookup (s : Nat) (key : List UInt8) (m : Master) : Calm m (m.lookup rt s key).2 := by
  refine rest (.lookup s key m) ⟨rfl, rfl⟩ rfl rfl fun x id a hh => ?_
  have hh : (Function.update m.hash s _ x).Has _ := hh
  by_cases hx : x = s
  · subst hx
    rw [Function.update_self] at hh
    exact hashGet_has.1 _ hh
  · rwa [Function.update_of_ne hx] at hh

theorem getCase {n : Option (HashNode Entry)} {o : Option Nat} (h : GetCase rt s n m o m') : Calm m m' := by
  cases h with
  | miss | hidden => exact refl m
  | passby => exact rest (.rest rfl rfl rfl rfl rfl rfl rfl rfl) ⟨rfl, rfl⟩ rfl rfl fun _ _ _ hh => hh
  | stale _ hd => exact evicted (.serverItemDelete hd)
  | @hit id a d _ _ _ _ _ =>
    have hset : Calm m (m.setItem a { m.space.item a with used := ((m.space.item a).used + 1) % 2 ^ 16 }) :=
      setItem ⟨_, _, _, _, rfl⟩
    refine ⟨.rest rfl rfl rfl rfl rfl rfl rfl rfl, rfl, ⟨[.hit (m.number a) s id], rfl, fun x hx s => ?_⟩, hset.item,
      fun _ _ _ hh => hh⟩
    rw [List.mem_singleton.mp hx]
    exact Happening.noConfusion

theorem deleteCase {n : Option (HashNode Entry)} {found : Bool} (h : DeleteCase rt s n m found m') : Calm m m' := by
  cases h with
  | miss => exact refl m
  | passby => exact evicted (.passbyItemDelete ..)
  | item hd => exact evicted (.serverItemDelete hd)

theorem passbyStore {id : HashId} {ok : Bool} (h : m.serverPassbyStore rt s id = (ok, m')) : Calm m m' := by
  have hf := Framed.passbyStore h
  unfold serverPassbyStore at h
  simp only at h
  split at h
  · cases h
    exact refl m
  split at h
  · cases h
    exact rest hf ⟨rfl, rfl⟩ rfl rfl fun _ _ _ hh => hh
  · cases h
    refine rest hf ⟨rfl, rfl⟩ rfl rfl fun x id a hh => ?_
    exact (Recent.link_has hh).resolve_left fun hn => nomatch hn.2

theorem freed {id : HashId} {n : Option (HashNode Entry)} (h : Freed rt s id n m m') : Calm m m' := by
  cases h with
  | absent hp => exact passbyStore hp
  | passby => exact evicted (.passbyItemDelete ..)
  | item hd => exact evicted (.serverItemDelete hd)

theorem release (d : Nat) (diskError : Bool) : Calm m (m.release a d diskError) := by
  have hdevice : Calm m { m with
      space := m.space.setDevice d { m.space.device d with used := (m.space.device d).used - 1 } } :=
    rest (.rest rfl rfl rfl rfl rfl rfl rfl rfl) ⟨rfl, rfl⟩ rfl rfl fun _ _ _ hh => hh
  exact hdevice.trans (setItem (Lives.released_same _ _))

theorem finalized {q : Req} (h : Finalized rt q m m') : Calm m m' := by
  unfold Finalized at h
  split at h
  · rw [h]
    exact refl m
  · cases h with
    | delete _ _ _ hd => exact (release _ _).trans (evicted (.serverItemDelete hd))
    | finished => exact (release _ _).trans (note fun _ => nofun)
    | sent => exact release _ _

end Calm

/-! ## Generations -/

/-- Item `a` belongs to server `s`, and has the generation it was stored in. -/
structure Stamp (s a : Nat) (m : Master) : Prop where
  home : m.home a = some s
  clear : ∃ k, (m.space.item a).clear = k % 2 ^ 16 ∧ k + clearsSince s (m.number a) m.log = m.log.count (.cleared s)

theorem home_lt {a s : Nat} {m : Master} (h : m.home a = some s) : m.number a < m.log.length := by
  obtain ⟨x, hx, -⟩ := Option.bind_eq_some_iff.mp h
  exact happened_lt (by rw [hx]; rfl)

theorem home_suffix {a s : Nat} {m m' : Master} (h : m.home a = some s) (hn : m'.number a = m.number a)
    (hlog : m.log <:+ m'.log) : m'.home a = some s := by
  rw [home, hn, happened_suffix hlog (home_lt h)]
  exact h

theorem Stamp.keep {s a : Nat} {m m' : Master} (h : Stamp s a m) (hn : m'.number a = m.number a) (hlog : m.log <:+ m'.log)
    (hc : (m'.space.item a).clear = (m.space.item a).clear) : Stamp s a m' := by
  obtain ⟨k, hk, hsum⟩ := h.clear
  refine ⟨home_suffix h.home hn hlog, k, hc.trans hk, ?_⟩
  obtain ⟨l, hl⟩ := hlog
  rw [hn, ← hl, clearsSince_append (home_lt h.home).le, List.count_append]
  omega

/-- A new item of the present generation. -/
theorem Stamp.new {s a : Nat} {x : Happening} {log : List Happening} {m : Master} (hn : m.number a = log.length)
    (hlog : m.log = x :: log) (hx : x.home = some s) (hc : (m.space.item a).clear = log.count (.cleared s) % 2 ^ 16) :
    Stamp s a m := by
  refine ⟨?_, _, hc, ?_⟩
  · rw [Master.home, hlog, hn, happened, if_pos rfl]
    exact hx
  · rw [hn, hlog, ← List.singleton_append, clearsSince_append (Nat.le_refl _), clearsSince_self, List.count_append,
      Nat.add_zero, Nat.add_comm]

/-- The generations of servers and items. -/
structure Dated (m : Master) : Prop where
  server : ∀ s < m.serverTotal, (m.server s).clear = m.log.count (.cleared s) % 2 ^ 16
  unborn : ∀ s, .cleared s ∈ m.log → s < m.serverTotal
  stamped : ∀ a ∈ m.space.items, ∃ s, Stamp s a m
  hashed : ∀ s ∈ m.allServers, ∀ id a, (m.hash s).Has ⟨id, .item a⟩ → m.home a = some s

namespace Dated

variable {rt : Runtime} {m m' : Master} {s a : Nat}

theorem calm (h : Dated m) (hq : Calm m m') : Dated m' := by
  obtain ⟨l, hl, hx⟩ := hq.log
  have hlog : m.log <:+ m'.log := ⟨l, hl.symm⟩
  have hcount : ∀ s, m'.log.count (.cleared s) = m.log.count (.cleared s) := fun s => by
    rw [hl, List.count_append, List.count_eq_zero.mpr fun hmem => hx _ hmem s rfl, Nat.zero_add]
  refine ⟨fun s hs => ?_, fun s hs => ?_, fun a ha => ?_, fun s hs id a hh => ?_⟩
  · obtain ⟨_, _, _, _, hy⟩ := hq.framed.server s
    rw [hcount, hy]
    exact h.server s (hq.framed.serverTotal ▸ hs)
  · rw [hq.framed.serverTotal]
    rw [hl] at hs
    exact h.unborn s ((List.mem_append.mp hs).resolve_left fun hmem => hx _ hmem s rfl)
  · obtain ⟨ha, p, d, b, u, hsame⟩ := hq.item a ha
    obtain ⟨s, hs⟩ := h.stamped a ha
    exact ⟨s, hs.keep (by rw [hq.number]) hlog (by rw [hsame])⟩
  · rw [hq.framed.allServers] at hs
    exact home_suffix (h.hashed s hs id a (hq.hash s id a hh)) (by rw [hq.number]) hlog

/-- **A new item.** Nothing has led to it before. -/
theorem born {x : Happening} (h : Dated m) (hr : Recent m) (ha : Absent a m) (hf : Framed m m')
    (hn : m'.number = Function.update m.number a m.log.length) (hlog : m'.log = x :: m.log) (hx : x.home = some s)
    (hc : (m'.space.item a).clear = m.log.count (.cleared s) % 2 ^ 16)
    (hitem : ∀ b ∈ m'.space.items, b ≠ a → b ∈ m.space.items ∧ (m'.space.item b).clear = (m.space.item b).clear)
    (hhash : ∀ y id b, (m'.hash y).Has ⟨id, .item b⟩ → (y = s ∧ b = a) ∨ (m.hash y).Has ⟨id, .item b⟩) : Dated m' := by
  have hsuffix : m.log <:+ m'.log := ⟨[x], hlog.symm⟩
  have hself : Stamp s a m' := .new (by rw [hn, Function.update_self]) hlog hx hc
  have hcount : ∀ y, m'.log.count (.cleared y) = m.log.count (.cleared y) := fun y => by
    have hne : x ≠ .cleared y := by
      rintro rfl
      cases hx
    rw [hlog, List.count_cons_of_ne hne]
  refine ⟨fun y hy => ?_, fun y hy => ?_, fun b hb => ?_, fun y hy id b hh => ?_⟩
  · obtain ⟨_, _, _, _, hserver⟩ := hf.server y
    rw [hcount, hserver]
    exact h.server y (hf.serverTotal ▸ hy)
  · rw [hf.serverTotal]
    rw [hlog] at hy
    refine h.unborn y ((List.mem_cons.mp hy).resolve_left ?_)
    rintro rfl
    cases hx
  · by_cases hba : b = a
    · exact ⟨s, hba ▸ hself⟩
    · obtain ⟨hb, hclear⟩ := hitem b hb hba
      obtain ⟨y, hy⟩ := h.stamped b hb
      exact ⟨y, hy.keep (by rw [hn, Function.update_of_ne hba]) hsuffix hclear⟩
  · rw [hf.allServers] at hy
    rcases hhash y id b hh with ⟨rfl, rfl⟩ | hh
    · exact hself.home
    · obtain ⟨l, hl⟩ := (hr.hashed y hy id b hh).1
      have hba : b ≠ a := fun he => ha l (he ▸ hl)
      exact home_suffix (h.hashed y hy id b hh) (by rw [hn, Function.update_of_ne hba]) hsuffix

theorem hash_tryAgain {fuel tries k : Nat} (ht : m.tryAgain rt s a fuel tries = some (k, m')) :
    ∀ y n, (m'.hash y).Has n → (m.hash y).Has n := by
  have hev : Evictions rt (fun _ => True) fun m₁ => ∀ y n, (m₁.hash y).Has n → (m.hash y).Has n :=
    ⟨fun _ _ _ => trivial, fun h _ hd y n hh => h y n ((Evicted.serverItemDelete hd).hash y n hh),
      fun h y n hh => h y n (Evicted.expirePassbys.hash y n hh)⟩
  rcases hev.tryAgain (fun h _ => h)
    (fun h he y n hh => h y n (((Evicted.steps rt _).deviceFreeBlockExtend (.refl _) he).hash y n hh)) (fun _ _ hh => hh) ht with
    ⟨-, h₁⟩ | ⟨-, m₁, sp, h₁, -, rfl⟩
  · exact h₁
  · exact h₁

theorem storeCase {id : HashId} {length headersLen : Nat} {expire : Int} {rc : PutRc} (h : Dated m) (hr : Recent m)
    (hs : s < m.serverTotal) (hc : StoreCase rt s id length headersLen expire m rc m') : Dated m' := by
  have hf := Framed.storeCase hc
  cases hc with
  | noMem => exact h.calm (.rest hf ⟨rfl, rfl⟩ rfl rfl fun _ _ _ hh => hh)
  | noSpace _ ht =>
    obtain ⟨hlog, hn, hitem⟩ := Lives.Searching.draft.tryAgain ht
    refine h.calm ⟨hf, hn, ⟨[], hlog, nofun⟩, fun b hb => ?_, fun y id b hh => hash_tryAgain ht y _ hh⟩
    obtain ⟨hb, hba⟩ := List.mem_filter.mp hb
    exact hitem b hb (by simpa using hba)
  | @ok a d k m₁ ha ht _ _ =>
    obtain ⟨hlog, hn, hitem⟩ := Lives.Searching.draft.tryAgain ht
    have hdraft : Framed m (m.draft a length headersLen) := .rest rfl rfl rfl rfl rfl rfl rfl rfl
    obtain ⟨_, _, _, _, hserver⟩ := (hdraft.trans (.tryAgain ht)).server s
    refine h.born (x := .created m₁.log.length s d id) hr (hr.absent_of_get ha) hf ?_ ?_ rfl ?_ (fun b hb hba => ?_)
      fun y id' b hh => ?_
    · show Function.update m₁.number a m₁.log.length = _
      rw [hn, hlog]
    · show .created m₁.log.length s d id :: m₁.log = _
      rw [hlog]
    · rw [admitted_item, hserver]
      exact h.server s hs
    · obtain ⟨hb, p, x, y, u, hsame⟩ := hitem b hb hba
      refine ⟨hb, ?_⟩
      show (Function.update m₁.space.item a _ b).clear = _
      rw [Function.update_of_ne hba, hsame]
    · exact (Recent.link_has hh).imp (fun ⟨hy, hn⟩ => ⟨hy, Entry.item.inj (HashNode.mk.inj hn).2⟩)
        fun hh => hash_tryAgain ht y _ hh

theorem putCase {buffer : List UInt8} {r : Request} {rc : PutRc} (h : Dated m) (hr : Recent m) (hs : s < m.serverTotal)
    (hc : PutCase rt s buffer r m rc m') : Dated m' := by
  cases hc with
  | declined => exact h
  | passby _ _ hp => exact h.calm ((Calm.lookup s _ m).trans (.passbyStore hp))
  | exist => exact h.calm (.lookup s _ m)
  | @store key _ _ _ _ _ _ hf hst =>
    have hlookup : Calm m (m.lookup rt s key).2 := .lookup s key m
    have hq := hlookup.trans (.freed hf)
    exact (h.calm hq).storeCase ((hr.lookup s key).freed hf) (hq.framed.serverTotal ▸ hs) hst

theorem callCase {buffer : List UInt8} {r : Request} {o : Outcome} {x : Option Nat} (h : Dated m) (hr : Recent m)
    (hs : s < m.serverTotal) (hc : CallCase rt s buffer r m o x m') : Dated m' := by
  cases hc with
  | get _ hg =>
    obtain ⟨key, -, hc⟩ := serverRequestGetHandler_cases hg
    exact h.calm ((Calm.lookup s key m).trans (.getCase hc))
  | store _ hp | refused _ _ hp => exact h.putCase hr hs (serverRequestPutHandler_cases hp)
  | delete _ hd =>
    obtain ⟨key, -, hc⟩ := serverRequestDeleteHandler_cases hd
    exact h.calm (((Calm.lookup s key m).trans (.note fun _ => Happening.noConfusion)).trans (.deleteCase hc))

/-- Items are loaded before the first clear. -/
theorem loadCase {d : Nat} {x : FormatItem} (h : Dated m) (hr : Recent m) (hzero : m.log.count (.cleared s) = 0)
    (hc : LoadCase rt s d x m m') : Dated m' := by
  have hf := Framed.loadCase hc
  cases hc with
  | noMem => exact h.calm (.rest hf ⟨rfl, rfl⟩ rfl rfl fun _ _ _ hh => hh)
  | @noFit a sp _ hc =>
    refine h.calm ⟨hf, rfl, ⟨[], rfl, nofun⟩, fun b hb => ?_, fun _ _ _ hh => hh⟩
    obtain ⟨hb, hba⟩ := List.mem_filter.mp hb
    obtain ⟨hb, hsame⟩ := Lives.cut_other hc hb (by simpa using hba)
    refine ⟨hb, ?_⟩
    show (m.space.item b).Same (sp.item b)
    rw [hsame]
    exact .refl _
  | @ok a k sp ha hc _ =>
    refine h.born (x := .loaded m.log.length s d x.hashId) hr (hr.absent_of_get ha) hf rfl rfl rfl ?_ (fun b hb hba => ?_)
      fun y id b hh => ?_
    · obtain ⟨hitem, -⟩ := Space.deviceCutFreeBlock_located hc
      show (Function.update sp.item a { sp.item a with id := x.hashId } a).clear = _
      rw [Function.update_self, hitem, hzero]
      show (Function.update m.space.item a _ a).clear = _
      rw [Function.update_self]
      rfl
    · obtain ⟨hb, hsame⟩ := Lives.cut_other hc hb hba
      refine ⟨hb, ?_⟩
      show (Function.update sp.item a _ b).clear = _
      rw [Function.update_of_ne hba, hsame]
    · exact (Recent.link_has hh).imp_left fun ⟨hy, hn⟩ => ⟨hy, Entry.item.inj (HashNode.mk.inj hn).2⟩

theorem cleared_loadCase {d : Nat} {x : FormatItem} (hc : LoadCase rt s d x m m') {y : Nat} (hy : .cleared y ∈ m'.log) :
    .cleared y ∈ m.log := by
  cases hc with
  | noMem | noFit => exact hy
  | ok => exact (List.mem_cons.mp hy).resolve_left Happening.noConfusion

/-! ## Servers -/

theorem servers (h : Dated m) (hclear : ∀ s, (m'.server s).clear = (m.server s).clear)
    (htotal : m'.serverTotal = m.serverTotal) (hall : ∀ s ∈ m'.allServers, s ∈ m.allServers) (hsp : m'.space = m.space)
    (hn : m'.number = m.number) (hlog : m'.log = m.log) (hhash : m'.hash = m.hash) : Dated m' := by
  have hhome : ∀ {a s}, m.home a = some s → m'.home a = some s := fun hs =>
    home_suffix hs (by rw [hn]) (by rw [hlog])
  refine ⟨fun s hs => ?_, fun s hs => ?_, fun a ha => ?_, fun s hs id a hh => ?_⟩
  · rw [hclear, hlog]
    exact h.server s (htotal ▸ hs)
  · rw [htotal]
    exact h.unborn s (hlog ▸ hs)
  · rw [hsp] at ha
    obtain ⟨s, hs⟩ := h.stamped a ha
    exact ⟨s, hs.keep (by rw [hn]) (by rw [hlog]) (by rw [hsp])⟩
  · rw [hhash] at hh
    exact hhome (h.hashed s (hall s hs) id a hh)

theorem update_clear {y : Server} (hm : m'.server = Function.update m.server s y) (hy : y.clear = (m.server s).clear) (x : Nat) :
    (m'.server x).clear = (m.server x).clear := by
  by_cases hx : x = s
  · rw [hm, hx, Function.update_self, hy]
  · rw [hm, Function.update_of_ne hx]

theorem serverDelete (h : Dated m) (hs : s ∈ m.servers) : Dated (m.serverDelete s) :=
  h.servers (update_clear rfl (by rfl)) rfl (fun _ => (mem_serverDelete hs).mp) rfl rfl rfl rfl

theorem serverUpdate {conf : ServerConf} (h : Dated m) (hs : s ∈ m.servers) : Dated (m.serverUpdate s conf) :=
  h.servers (update_clear rfl (by rfl)) rfl (fun _ => (mem_serverUpdate hs).mp) rfl rfl rfl rfl

theorem serverCreate {conf : ServerConf} (h : Dated m) (ht : TableInv m) (hc : m.serverCreate conf = some m') : Dated m' := by
  have hmem := fun x (hx : x ∈ m'.allServers) => TableInv.mem_create hc hx
  unfold Master.serverCreate at hc
  obtain ⟨⟨i, t⟩, -, hc⟩ := Option.bind_eq_some_iff.mp hc
  obtain ⟨hash, hinit, hc⟩ := Option.bind_eq_some_iff.mp hc
  cases hc
  refine ⟨fun s hs => ?_, fun s hs => Nat.lt_succ_of_lt (h.unborn s hs), fun a ha => ?_, fun s hs id a hh => ?_⟩
  · show (Function.update m.server m.serverTotal _ s).clear = _
    by_cases hst : s = m.serverTotal
    · subst hst
      rw [Function.update_self, List.count_eq_zero.mpr fun hmem => Nat.lt_irrefl _ (h.unborn _ hmem)]
      rfl
    · rw [Function.update_of_ne hst]
      exact h.server s (Nat.lt_of_le_of_ne (Nat.le_of_lt_succ hs) hst)
  · obtain ⟨s, hs⟩ := h.stamped a ha
    exact ⟨s, hs.keep rfl (List.suffix_refl _) rfl⟩
  · have hh : (Function.update m.hash m.serverTotal hash s).Has ⟨id, .item a⟩ := hh
    rcases hmem s hs with rfl | hs
    · rw [Function.update_self, (hashInit_rep hinit).toHashHolds.has_iff] at hh
      cases hh
    · rw [Function.update_of_ne (ht.total s hs).ne] at hh
      exact h.hashed s hs id a hh

theorem serverConfLoad {plan : List ServerPlan} (h : Dated m) (hr : Recent m) (hplan : ServerPlanOk m plan)
    (hl : m.serverConfLoad plan = some m') : Dated m' :=
  (serverConfLoad_rule (P := fun m => Recent m ∧ Dated m) (fun _ hP => (List.nodup_append.mp hP.1.table.nodup).1)
    (fun hP hs => ⟨hP.1.serverDelete hs, hP.2.serverDelete hs⟩) (fun hP hs => ⟨hP.1.serverUpdate hs, hP.2.serverUpdate hs⟩)
    (fun hP hc => ⟨hP.1.serverCreate hc, hP.2.serverCreate hP.1.table hc⟩) hplan ⟨hr, h⟩ hl).2

/-- **`server_clear`.** -/
theorem serverClear (h : Dated m) (hs : s < m.serverTotal) : Dated (m.serverClear s) := by
  refine ⟨fun x hx => ?_, fun x hx => ?_, fun a ha => ?_, fun x hx id a hh => ?_⟩
  · show (Function.update m.server s _ x).clear = (.cleared s :: m.log).count (.cleared x) % 2 ^ 16
    by_cases hxs : x = s
    · subst hxs
      rw [Function.update_self, List.count_cons_self]
      show ((m.server x).clear + 1) % 2 ^ 16 = _
      rw [h.server x hs, Nat.mod_add_mod]
    · rw [Function.update_of_ne hxs, List.count_cons_of_ne fun he => hxs (Happening.cleared.inj he).symm]
      exact h.server x hx
  · rcases List.mem_cons.mp hx with he | hx
    · exact Happening.cleared.inj he ▸ hs
    · exact h.unborn x hx
  · obtain ⟨x, hx⟩ := h.stamped a ha
    exact ⟨x, hx.keep rfl (List.suffix_cons _ _) rfl⟩
  · exact home_suffix (h.hashed x hx id a hh) rfl (List.suffix_cons _ _)

theorem evictions (rt : Runtime) : Evictions rt (fun _ => True) fun m => Recent m ∧ Dated m :=
  ⟨fun _ _ _ => trivial, fun h _ hd => ⟨h.1.serverItemDelete hd, h.2.calm (.evicted (.serverItemDelete hd))⟩,
    fun h => ⟨h.1.expirePassbys, h.2.calm (.evicted .expirePassbys)⟩⟩

theorem frees : Evictions.Frees fun m => Recent m ∧ Dated m where
  nodup h := Recent.frees.nodup h.1
  free h hs ht hi hp := ⟨Recent.frees.free h.1 hs ht hi hp, h.2.servers (fun _ => rfl) rfl
    (fun _ hx => (List.Sublist.append_left List.erase_sublist _).subset hx) rfl rfl rfl rfl⟩

end Dated

/-- **One step** of the master. -/
theorem masterStep_dated {rt : Runtime} {m m' : Master} {e : MasterEvent} (hr : Recent m) (hm : Dated m)
    (hboot : ∀ d io image, e = .load d io image → m.Booting) (h : masterStep rt m e = some m') : Dated m' := by
  cases e with
  | tick now =>
    obtain ⟨-, h⟩ := Option.ite_none_right_eq_some.mp h
    cases h
    exact hm.servers (fun _ => rfl) rfl (fun _ hx => hx) rfl rfl rfl rfl
  | accept s r old buffer total =>
    obtain ⟨-, h⟩ := Option.ite_none_right_eq_some.mp h
    cases h
    exact hm.servers (Dated.update_clear rfl (by rfl)) rfl (fun _ hx => hx) rfl rfl rfl rfl
  | conn r e =>
    obtain ⟨-, h⟩ := Option.ite_none_right_eq_some.mp h
    obtain ⟨c, -, rfl⟩ := Option.map_eq_some_iff.mp h
    exact hm.servers (fun _ => rfl) rfl (fun _ hx => hx) rfl rfl rfl rfl
  | handle r dispatch send =>
    obtain ⟨⟨-, hs⟩, h⟩ := Option.ite_none_right_eq_some.mp h
    rcases handle_cases h with ⟨o, x, m₁, c, -, hc, -, rfl⟩ | ⟨o, rc, c, -, -, -, rfl⟩
    · exact (hm.callCase hr (hr.table.total _ hs) hc).servers (fun _ => rfl) rfl (fun _ hx => hx) rfl rfl rfl rfl
    · exact hm.servers (fun _ => rfl) rfl (fun _ hx => hx) rfl rfl rfl rfl
  | finish r =>
    obtain ⟨-, h⟩ := Option.ite_none_right_eq_some.mp h
    obtain ⟨m₁, hf, hcase⟩ := requestDoFinalize_cases h
    have h₁ := hm.calm (.finalized hf)
    rcases hcase with ⟨-, rfl⟩ | ⟨-, rfl⟩
    · exact h₁.servers (Dated.update_clear rfl (by rfl)) rfl (fun _ hx => hx) rfl rfl rfl rfl
    · exact h₁.servers (fun _ => rfl) rfl (fun _ hx => hx) rfl rfl rfl rfl
  | clear port =>
    obtain ⟨s, hs, rfl⟩ := Option.map_eq_some_iff.mp h
    exact hm.serverClear (hr.table.total s (List.mem_append_left _ (serverByPort_eq_some hs).1))
  | reload env conf =>
    unfold masterStep at h
    simp only at h
    split at h
    · next devices servers _ hplan =>
      unfold confLoad at h
      obtain ⟨sp, hsp, h⟩ := Option.bind_eq_some_iff.mp h
      have hplan := (serverConfCheck_ok hplan).1
      have hsame : Calm m { m with space := sp } :=
        .rest (.rest rfl rfl rfl rfl rfl rfl rfl rfl) (.deviceConfLoad hsp) rfl rfl fun _ _ _ hh => hh
      exact (hm.calm hsame).serverConfLoad (hr.space (.deviceConfLoad hsp))
        ⟨hplan.ports, hplan.existing, hplan.count⟩ h
    · cases h
  | load d io image =>
    obtain ⟨-, hlog⟩ := hboot d io image rfl
    obtain ⟨-, h⟩ := Option.ite_none_right_eq_some.mp h
    obtain ⟨⟨ok, image', m₁⟩, h₁, rfl⟩ := Option.map_eq_some_iff.mp h
    have hnone : ∀ s, .cleared s ∉ m.log := fun s hs => by
      obtain ⟨_, _, _, _, hx⟩ := hlog _ hs
      cases hx
    exact (formatLoadDevice_rule (P := fun m => Recent m ∧ Dated m ∧ ∀ s, .cleared s ∉ m.log)
      (fun hP hs hx =>
        have hc := serverLoadFmItem_cases hx
        ⟨hP.1.loadCase (hP.1.table.total _ (List.mem_append_left _ hs)) hc, hP.2.1.loadCase hP.1 (List.count_eq_zero.mpr (hP.2.2 _)) hc,
          fun s hs => hP.2.2 s (Dated.cleared_loadCase hc hs)⟩)
      (fun hP hp => ⟨hP.1.space (.loadPost hp), hP.2.1.calm (.rest (.rest rfl rfl rfl rfl rfl rfl rfl rfl) (.loadPost hp)
        rfl rfl fun _ _ _ hh => hh), hP.2.2⟩) ⟨hr, hm, hnone⟩ h₁).2.1
  | serverRoutine => exact ((Dated.evictions rt).serverRoutine Dated.frees ⟨hr, hm⟩ h).2
  | deviceRoutine => exact hm.calm (.evicted ((Evicted.steps rt _).deviceRoutine (.refl _) h))

theorem dated_run {rt : Runtime} {m : Master} (h : (masterSystem rt).Reachable m) : Dated m := by
  refine h.invariant (fun m hm => ?_) fun m e m' hr hm _ hn => masterStep_dated (recent_run hr) hm hn.2 hn.1
  obtain ⟨now, rfl⟩ := hm
  exact ⟨nofun, nofun, nofun, nofun⟩

/-! ## What is valid -/

/-- The server of item `a` was cleared since the item was stored or loaded. -/
def ClearedSince (a : Nat) (m : Master) : Prop := ∃ s, m.home a = some s ∧ 0 < clearsSince s (m.number a) m.log

/-- It was cleared as often as the generations are. -/
def Wrapped (a : Nat) (m : Master) : Prop :=
  ∃ s, m.home a = some s ∧ 0 < clearsSince s (m.number a) m.log ∧ 2 ^ 16 ∣ clearsSince s (m.number a) m.log

/-- A valid item of server `s` is of its generation. -/
theorem dvd_clearsSince {m : Master} {s a : Nat} (h : Dated m) (ha : Stamp s a m) (hs : s < m.serverTotal)
    (hc : (m.space.item a).clear = (m.server s).clear) : 2 ^ 16 ∣ clearsSince s (m.number a) m.log := by
  obtain ⟨k, hk, hsum⟩ := ha.clear
  have hmod : k % 2 ^ 16 = m.log.count (.cleared s) % 2 ^ 16 := by rw [← hk, hc, h.server s hs]
  omega

theorem cleared_iff_wrapped {m : Master} {s a : Nat} (hs : m.home a = some s)
    (hd : 2 ^ 16 ∣ clearsSince s (m.number a) m.log) : ¬m.ClearedSince a ↔ ¬m.Wrapped a := by
  refine not_congr ⟨fun ⟨x, hx, hpos⟩ => ?_, fun ⟨x, hx, hpos, _⟩ => ⟨x, hx, hpos⟩⟩
  obtain rfl : s = x := Option.some.inj (hs.symm.trans hx)
  exact ⟨s, hx, hpos, hd⟩

/-- **Clear is permanent** for an item that is returned or dumped just if its
server was not cleared a multiple of 65536 times since the item was stored. -/
theorem clear_permanent_iff {rt : Runtime} {m : Master} (h : (masterSystem rt).Reachable m) :
    (∀ s ∈ m.allServers, ∀ buffer r a m', m.serverRequestGetHandler rt s buffer r = some (some a, m') →
      (¬m.ClearedSince a ↔ ¬m.Wrapped a)) ∧
    ((masterSystem rt).Reach Substantial m → ∀ d l a, m.dumpItems (m.space.order d) = some l → a ∈ l →
      (¬m.ClearedSince a ↔ ¬m.Wrapped a)) := by
  have hdated := dated_run h
  have hrecent := recent_run h
  refine ⟨fun s hs buffer r a m' hg => ?_, fun hsub d l a hl ha => ?_⟩
  · obtain ⟨key, -, hc⟩ := serverRequestGetHandler_cases hg
    generalize hn : (m.lookup rt s key).1 = n at hc
    cases hc with
    | hit _ _ hv _ =>
      have hhash := (hashGet_has.2 _ hn).1
      obtain ⟨⟨x, hx⟩, -, -, hindex⟩ := hrecent.lookup_visible hs hn
      have hhome := hdated.hashed s hs _ a hhash
      obtain ⟨y, hy, -, hclear⟩ := serverItemValid_clear hv
      obtain rfl : y = s := hrecent.table.eq_of_get hs (hindex ▸ hy)
      obtain ⟨z, hz⟩ := hdated.stamped a (hrecent.listed x a hx)
      obtain rfl : z = y := Option.some.inj (hz.home.symm.trans hhome)
      exact cleared_iff_wrapped hhome (dvd_clearsSince hdated hz (hrecent.table.total z hs) hclear)
  · obtain ⟨horder, hd⟩ := mem_dumpItems hl ha
    have hlinks := (links_run hsub).order
    have hitem : a ∈ m.space.items := Space.mem_nodes_item.mp (hlinks.mem_nodes horder)
    obtain ⟨s, hs, -, hclear⟩ := serverItemValid_clear (dumps_valid hd)
    obtain ⟨hmem, hhome⟩ := (audited_run hsub).booked.serverOfItem_eq hrecent.table hitem hs
    obtain ⟨z, hz⟩ := hdated.stamped a hitem
    obtain rfl : z = s := Option.some.inj (hz.home.symm.trans hhome)
    exact cleared_iff_wrapped hhome (dvd_clearsSince hdated hz (hrecent.table.total z hmem) hclear)

/-- `/a` is stored, and another connection has sent a GET for it. -/
def asked : List MasterEvent :=
  storingOn 0 "a" ++ [.accept 0 8 .blank (List.replicate reqBufSize 0) (lit "GET /a HTTP/1.1\r\n\r\n"),
    .conn 8 (.recv ⟨0, 0, fun _ => -1⟩ 19)]

/-- What it gets, if the history is another one. -/
def answer (log : List Happening) (m : Master) : Option (Option Nat) :=
  ({ m with log }.serverRequestGetHandler .plain 0 (m.request 8).conn.buffer (m.request 8).conn.r).map Prod.fst

/-- The item is sent. -/
theorem clear_permanent_asked : ∃ m r buffer m', (masterSystem .plain).Reachable m ∧
    m.serverRequestGetHandler .plain 0 buffer r = some (some 1, m') ∧ ¬m.ClearedSince 1 := by
  have hrun : (System.run (masterStep .plain) (Process.boot 0).master asked).map (fun m =>
      (m.answer m.log, m.servers, m.home 1, clearsSince 0 (m.number 1) m.log)) = some (some (some 1), [0], some 0, 0) := by
    decide +kernel
  obtain ⟨m, hm, hview⟩ := Option.map_eq_some_iff.mp hrun
  simp only [Prod.mk.injEq] at hview
  obtain ⟨hanswer, hservers, hhome, hclears⟩ := hview
  obtain ⟨⟨o, m'⟩, hg, rfl⟩ := Option.map_eq_some_iff.mp hanswer
  have hr : (masterSystem .plain).Reachable m := masterSystem_run rfl (.init ⟨0, rfl⟩) hm
  have hs : 0 ∈ m.allServers := List.mem_append_left _ (by rw [hservers]; exact List.mem_singleton_self 0)
  refine ⟨m, _, _, m', hr, hg, ((clear_permanent_iff hr).1 0 hs _ _ _ _ hg).mpr ?_⟩
  rintro ⟨s, hs, hpos, -⟩
  obtain rfl : 0 = s := Option.some.inj (hhome.symm.trans hs)
  omega

/-! ## 65536 clears -/

theorem serverByPort_serverClear (port s : Nat) (m : Master) : (m.serverClear s).serverByPort port = m.serverByPort port := by
  have hconf : ∀ x, ((m.serverClear s).server x).conf = (m.server x).conf := fun x => by
    show (Function.update m.server s _ x).conf = _
    by_cases hx : x = s
    · rw [hx, Function.update_self]
    · rw [Function.update_of_ne hx]
  simp only [serverByPort, hconf]
  rfl

/-- Clears of the server at a port, one after the other. -/
theorem run_clears {rt : Runtime} {port s : Nat} {m : Master} (hs : m.serverByPort port = some s) (n : Nat) :
    System.run (masterStep rt) m (List.replicate (n + 1) (.clear port)) = some { m with
      server := Function.update m.server s { m.server s with clear := ((m.server s).clear + (n + 1)) % 2 ^ 16 }
      log := List.replicate (n + 1) (.cleared s) ++ m.log } := by
  have hstep : ∀ {m : Master}, m.serverByPort port = some s → masterStep rt m (.clear port) = some (m.serverClear s) := by
    intro m hs
    show (m.serverByPort port).map _ = _
    rw [hs]
    rfl
  induction n generalizing m with
  | zero =>
    rw [List.replicate_succ, System.run, hstep hs]
    rfl
  | succ n ih =>
    have hserver : (m.serverClear s).server s = { m.server s with clear := ((m.server s).clear + 1) % 2 ^ 16 } :=
      Function.update_self ..
    rw [List.replicate_succ, System.run, hstep hs, Option.bind_some, ih ((serverByPort_serverClear ..).trans hs), hserver]
    have hsum : (((m.server s).clear + 1) % 2 ^ 16 + (n + 1)) % 2 ^ 16 = ((m.server s).clear + (n + 1 + 1)) % 2 ^ 16 := by
      omega
    have hlog : List.replicate (n + 1) (.cleared s) ++ (m.serverClear s).log = List.replicate (n + 1 + 1) (.cleared s) ++ m.log := by
      show List.replicate (n + 1) (.cleared s) ++ .cleared s :: m.log = _
      rw [List.replicate_succ' (n := n + 1), List.append_assoc]
      rfl
    rw [hlog]
    simp only [hsum, serverClear, note, setServer, Function.update_idem]

/-- **After 65536 clears** of the server the item is sent as if there had been
none. -/
theorem clear_permanent_wrapped : ∃ m n r buffer m', (masterSystem .plain).Reachable m ∧
    m.log = List.replicate 65536 (.cleared 0) ++ n ∧ m.home 1 = some 0 ∧
    m.serverRequestGetHandler .plain 0 buffer r = some (some 1, m') ∧ m.ClearedSince 1 := by
  have hrun : (System.run (masterStep .plain) (Process.boot 0).master asked).map (fun m =>
      (m.answer (List.replicate 65536 (.cleared 0) ++ m.log), m.serverByPort 80, m.home 1, (m.server 0).clear)) =
        some (some (some 1), some 0, some 0, 0) := by
    decide +kernel
  obtain ⟨m, hm, hview⟩ := Option.map_eq_some_iff.mp hrun
  simp only [Prod.mk.injEq] at hview
  obtain ⟨hanswer, hport, hhome, hclear⟩ := hview
  obtain ⟨⟨o, m'⟩, hg, rfl⟩ := Option.map_eq_some_iff.mp hanswer
  have hr : (masterSystem .plain).Reachable m := masterSystem_run rfl (.init ⟨0, rfl⟩) hm
  have hsame : { m.server 0 with clear := ((m.server 0).clear + (65535 + 1)) % 2 ^ 16 } = m.server 0 := by
    have hzero : ((m.server 0).clear + (65535 + 1)) % 2 ^ 16 = (m.server 0).clear := by omega
    rw [hzero]
  have hclears := @run_clears .plain _ _ _ hport 65535
  rw [hsame, Function.update_eq_self] at hclears
  have hall : (List.replicate (65535 + 1) (MasterEvent.clear 80)).all (!·.isLoad) = true :=
    List.all_eq_true.mpr fun e he => by rw [List.eq_of_mem_replicate he]; rfl
  have hr' := masterSystem_run hall hr hclears
  have hhome' : home 1 { m with log := List.replicate 65536 (.cleared 0) ++ m.log } = some 0 :=
    home_suffix hhome rfl (List.suffix_append ..)
  refine ⟨_, m.log, _, _, m', hr', rfl, hhome', hg, 0, hhome', ?_⟩
  show 0 < clearsSince 0 (m.number 1) (List.replicate 65536 (.cleared 0) ++ m.log)
  rw [clearsSince_append (home_lt hhome).le, List.count_replicate_self]
  omega

end Master

end OliveHc
