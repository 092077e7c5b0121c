/-
The audit of the books.

Every step of the program leaves the books of all servers in order
(`Booked`), as long as no block is asked for nothing. With the lists of the
devices (`links_run`) and the LRU lists (`filed_run`) this is the bookkeeping
of the items.
-/
import OliveHc.Format.Duplicates
import OliveHc.Master.Books
import OliveHc.Master.Places

namespace OliveHc

namespace Master

theorem mem_serverDelete {s x : Nat} {m : Master} (hs : s ∈ m.servers) :
    x ∈ (m.serverDelete s).allServers ↔ x ∈ m.allServers :=
  (((List.perm_cons_erase hs).append_right _).trans List.perm_middle.symm).symm.mem_iff

theorem mem_serverUpdate {s x : Nat} {conf : ServerConf} {m : Master} (hs : s ∈ m.servers) :
    x ∈ (m.serverUpdate s conf).allServers ↔ x ∈ m.allServers :=
  ((perm_move hs).append_right _).mem_iff

/-- With what the books rely on. -/
structure Audited (m : Master) : Prop where
  recent : Recent m
  passbys : Passbys (fun _ _ _ => True) m
  booked : Booked m

namespace Audited

variable {rt : Runtime} {m m' : Master} {s a : Nat}

theorem itemDelete (h : Audited m) (hd : m.serverItemDelete rt a = some m') : Audited m' :=
  ⟨h.recent.serverItemDelete hd, h.passbys.serverItemDelete hd, h.booked.serverItemDelete h.recent.table hd⟩

theorem expirePassbys {count : Nat} (h : Audited m) : Audited (m.expirePassbys s count (m.passbyLru s).reverse) :=
  ⟨h.recent.expirePassbys, h.passbys.expireAll,
    h.booked.expirePassbys (List.nodup_reverse.mpr (h.passbys.owned.nodup s)) fun _ hp => List.mem_reverse.mp hp⟩

theorem space {sp : Space} (h : Audited m) (hsp : ItemsSame m.space sp) : Audited { m with space := sp } :=
  ⟨h.recent.space hsp, h.passbys.space sp, h.booked.space hsp⟩

theorem evictions (rt : Runtime) : Evictions rt (fun _ => True) Audited :=
  ⟨fun _ _ _ => trivial, fun h _ hd => h.itemDelete hd, fun h => h.expirePassbys⟩

theorem steps (rt : Runtime) : (Master.host rt).Steps Audited :=
  ⟨fun h hs => h.space (.fblockDelete hs), fun h hd => h.itemDelete hd, fun h => h.space ⟨rfl, rfl⟩⟩

theorem lookup (h : Audited m) (s : Nat) (key : List UInt8) : Audited (m.lookup rt s key).2 :=
  ⟨h.recent.lookup s key, h.passbys.lookup s key, h.booked.lookup s key⟩

theorem getCase {n : Option (HashNode Entry)} {o : Option Nat} (h : Audited m)
    (hn : ∀ id p, n = some ⟨id, .passby p⟩ → p ∈ m.passbyLru s) (hi : ∀ id a, n = some ⟨id, .item a⟩ → m.home a = some s)
    (hc : GetCase rt s n m o m') : Booked m' := by
  cases hc with
  | miss | hidden => exact h.booked
  | passby => exact h.booked.front (hn _ _ rfl)
  | stale _ hd => exact (h.itemDelete hd).booked
  | @hit id a d =>
    have hused := h.booked.setItem (a := a) (x := { m.space.item a with used := ((m.space.item a).used + 1) % 2 ^ 16 })
      ⟨rfl, rfl, rfl, rfl⟩
    have hmoved := (hused.touch (s := s) (hi _ _ rfl)).note (x := .hit (m.number a) s id)
    exact hmoved.same (List.suffix_refl _) rfl ⟨rfl, rfl⟩ rfl rfl (fun _ => Booked.sameBooks_refl _) rfl rfl rfl

theorem deleteCase {n : Option (HashNode Entry)} {found : Bool} (h : Audited m)
    (hn : ∀ id p, n = some ⟨id, .passby p⟩ → p ∈ m.passbyLru s) (hc : DeleteCase rt s n m found m') : Booked m' := by
  cases hc with
  | miss => exact h.booked
  | passby => exact h.booked.passbyItemDelete (hn _ _ rfl)
  | item hd => exact (h.itemDelete hd).booked

theorem freed {id : HashId} {n : Option (HashNode Entry)} (h : Audited m) (hs : s < m.serverTotal)
    (hn : ∀ id p, n = some ⟨id, .passby p⟩ → p ∈ m.passbyLru s) (hf : Freed rt s id n m m') : Audited m' := by
  refine ⟨h.recent.freed hf, h.passbys.freed hs hn hf, ?_⟩
  cases hf with
  | absent hp => exact h.booked.passbyStore h.passbys.owned hp
  | passby => exact h.booked.passbyItemDelete (hn _ _ rfl)
  | item hd => exact (h.itemDelete hd).booked

/-- An item that nothing leads to is drafted. -/
theorem draft {t length headersLen : Nat} (h : Audited m) (hs : s < m.serverTotal) (ha : rt.al.get t m.space.items = some a) :
    Audited (m.draft a length headersLen) := by
  have hfresh : a ∉ m.space.items := rt.al.fresh ha
  refine ⟨(h.recent.draft hs ha length headersLen).1, h.passbys.frame rfl rfl rfl (Nat.le_refl _) fun _ _ _ hh => hh,
    h.booked.frame (List.suffix_refl _) rfl rfl (fun b hb => ?_) (fun _ _ hl => hl) (fun _ => Iff.rfl) (fun _ => Booked.sameBooks_refl _)
      (fun _ => .refl _) rfl fun _ _ hL => hL⟩
  have hba : b ≠ a := fun he => hfresh (he ▸ hb)
  show Booked.SameEntry _ (Function.update m.space.item a _ b)
  rw [Function.update_of_ne hba]
  exact ⟨rfl, rfl, rfl, rfl⟩

theorem storeCase {id : HashId} {length headersLen : Nat} {expire : Int} {rc : PutRc} (h : Audited m) (hl : LinkInv m.space)
    (hs : s ∈ m.allServers) (hn : length ≠ 0) (hlt : length < 2 ^ 32)
    (hc : StoreCase rt s id length headersLen expire m rc m') : Booked m' := by
  have htotal := h.recent.table.total s hs
  have hsearch : ∀ {a k m₁}, rt.al.get m.calls m.space.items = some a →
      (m.draft a length headersLen).tryAgain rt s a 12 0 = some (k, m₁) →
      Evictions.Searched (fun m => Seeking LinkInv length a m ∧ Audited m) a k m₁ := by
    intro a k m₁ ha ht
    have hfresh : a ∉ m.space.items := rt.al.fresh ha
    have hseek : Seeking LinkInv length a (m.draft a length headersLen) := by
      refine ⟨hl.same (sameBlocks_setItem fun hmem => absurd hmem hfresh), hfresh, ?_⟩
      show (Function.update m.space.item a _ a).length = length
      rw [Function.update_self]
    exact hseek.searched (LinkInv.rule rt.al) (evictions rt) (steps rt) (fun h hsp => h.space hsp) hn hlt (h.draft htotal ha) ht
  cases hc with
  | noMem => exact h.booked.same (List.suffix_refl _) rfl ⟨rfl, rfl⟩ rfl rfl (fun _ => Booked.sameBooks_refl _) rfl rfl rfl
  | @noSpace a m₁ ha ht =>
    rcases hsearch ha ht with ⟨-, hseek, h₁⟩ | ⟨hk, -⟩
    · rw [itemFree_of_not_mem hseek.fresh]
      exact h₁.booked
    · exact absurd rfl hk
  | @ok a d k m₁ ha ht hk =>
    have hdraft : Framed m (m.draft a length headersLen) := .rest rfl rfl rfl rfl rfl rfl rfl rfl
    have hall := (hdraft.trans (Framed.tryAgain ht)).allServers
    rcases hsearch ha ht with ⟨h0, -⟩ | ⟨-, m₂, sp, ⟨hseek, h₂⟩, hg, rfl⟩
    · exact absurd h0 hk
    obtain ⟨hloc, htaken, -⟩ := Space.getFreeBlock_located hg
    obtain ⟨hsize, -, hmem⟩ := htaken hk
    obtain ⟨o, i, hitem⟩ := hloc.item
    have hself : sp.item a = { m₂.space.item a with offset := o, deviceIndex := i } := by rw [hitem, Function.update_self]
    have hitems : sp.items = a :: m₂.space.items := by
      rcases hloc.items with he | ⟨-, he⟩
      · exact absurd (he ▸ hmem) hseek.fresh
      · exact he
    have hnode : itemNode (Master.admitted rt s a d k id expire { m₂ with space := sp }).space.item a = ⟨id, .item a⟩ := by
      rw [itemNode, admitted_item]
    have hlength : ((Master.admitted rt s a d k id expire { m₂ with space := sp }).space.item a).length = (m₂.space.item a).length := by
      rw [admitted_item, hself]
    refine h₂.booked.insert (s := s) (a := a) hseek.fresh (hall ▸ hs) (fun l hl => hseek.fresh (h₂.recent.listed l a hl)) rfl hitems (fun b hb => ?_) (by rw [admitted_item])
      (by rw [admitted_item]) rfl rfl rfl rfl ?_ (by rw [hnode]; rfl) rfl rfl
    · show Function.update sp.item a _ b = _
      rw [Function.update_of_ne hb, hitem, Function.update_of_ne hb]
    · rw [hlength, ← hsize]
      have hcontent : (Function.update sp.item a { sp.item a with
          putting := true, badblock := false, deleted := false, used := 0, clear := (m₂.server s).clear, expire
          serverIndex := (m₂.server s).index, id } a).length = (m₂.space.item a).length := by
        rw [Function.update_self, hself]
      rw [← hcontent]
      rfl

theorem lookup_passby {key : List UInt8} (h : Audited m) (id : HashId) (p : Nat)
    (hn : (m.lookup rt s key).1 = some ⟨id, .passby p⟩) : p ∈ m.passbyLru s := (h.passbys.lookup_linked hn).1

/-- What a lookup finds is an item of the server. -/
theorem lookup_item {key : List UInt8} {id : HashId} (h : Audited m) (hs : s ∈ m.allServers)
    (hn : (m.lookup rt s key).1 = some ⟨id, .item a⟩) : m.home a = some s := by
  have hhas := (h.booked.ledger s hs).hash.has_iff.mp (hashGet_has.2 _ hn).1
  rcases mem_entries.mp hhas with ⟨b, hb, -, he⟩ | ⟨p, -, he⟩
  · cases (HashNode.mk.inj he).2
    exact (mem_itemsOf.mp hb).2
  · exact nomatch (HashNode.mk.inj he).2

theorem putCase {buffer : List UInt8} {r : Request} {rc : PutRc} (h : Audited m) (hl : LinkInv m.space) (hs : s ∈ m.allServers)
    (hw : Writes r) (hc : PutCase rt s buffer r m rc m') : Booked m' := by
  cases hc with
  | declined => exact h.booked
  | passby _ _ hp => exact (h.lookup s _).booked.passbyStore (h.lookup s _).passbys.owned hp
  | exist => exact (h.lookup s _).booked
  | @store key _ m₁ _ _ _ _ hf hst =>
    have h₁ := (h.lookup s key).freed (h.recent.table.total s hs) (fun id p hn => h.lookup_passby id p hn) hf
    have hl₁ := freed_space (LinkInv.rule rt.al) (m := (m.lookup rt s key).2) hl hf
    have hlookup : Framed m (m.lookup rt s key).2 := .lookup s key m
    have hall := (hlookup.trans (Framed.freed hf)).allServers
    unfold Writes at hw
    exact h₁.storeCase hl₁ (hall ▸ hs) (by omega) (by omega) hst

theorem callCase {buffer : List UInt8} {r : Request} {o : Outcome} {x : Option Nat} (h : Audited m) (hl : LinkInv m.space)
    (hs : s ∈ m.allServers) (hw : r.method.isStore = true → Writes r) (hc : CallCase rt s buffer r m o x m') : Booked m' := by
  cases hc with
  | get _ hg =>
    obtain ⟨key, -, hc⟩ := serverRequestGetHandler_cases hg
    exact (h.lookup s key).getCase (fun id p hn => h.lookup_passby id p hn) (fun id a hn => h.lookup_item hs hn) hc
  | store hm hp | refused hm _ hp => exact h.putCase hl hs (hw hm) (serverRequestPutHandler_cases hp)
  | delete _ hd =>
    obtain ⟨key, -, hc⟩ := serverRequestDeleteHandler_cases hd
    have hnote : Audited ((m.lookup rt s key).2.note (.deleted s (rt.md5 key))) :=
      ⟨(h.recent.lookup s key).note fun _ => rfl, (h.passbys.lookup s key).note, (h.booked.lookup s key).note⟩
    exact hnote.deleteCase (fun id p hn => h.lookup_passby id p hn) hc

/-! ## The end of a request, and loading -/

theorem release (h : Audited m) (a d : Nat) (diskError : Bool) : Audited (m.release a d diskError) := by
  refine ⟨h.recent.release a d diskError, h.passbys.frame rfl rfl rfl (Nat.le_refl _) fun _ _ _ hh => hh, ?_⟩
  have hrel := h.booked.setItem (a := a) (x := released (m.space.item a) diskError) (by
    unfold released
    cases (m.space.item a).putting <;> cases diskError <;> exact ⟨rfl, rfl, rfl, rfl⟩)
  exact hrel.same (List.suffix_refl _) rfl ⟨rfl, rfl⟩ rfl rfl (fun _ => Booked.sameBooks_refl _) rfl rfl rfl

theorem finalized {q : Req} (h : Audited m) (hf : Finalized rt q m m') : Booked m' := by
  unfold Finalized at hf
  split at hf
  · rw [hf]
    exact h.booked
  · cases hf with
    | delete _ _ _ hd => exact ((h.release _ _ _).itemDelete hd).booked
    | finished => exact (h.release _ _ _).booked.note
    | sent => exact (h.release _ _ _).booked

theorem loadCase {d : Nat} {x : FormatItem} (h : Audited m) (hs : s ∈ m.allServers) (hc : LoadCase rt s d x m m') :
    Audited m' := by
  refine ⟨h.recent.loadCase (h.recent.table.total s hs) hc, h.passbys.loadCase hc, ?_⟩
  cases hc with
  | noMem => exact h.booked.same (List.suffix_refl _) rfl ⟨rfl, rfl⟩ rfl rfl (fun _ => Booked.sameBooks_refl _) rfl rfl rfl
  | @noFit a sp ha hcut =>
    have hfresh : a ∉ m.space.items := rt.al.fresh ha
    obtain ⟨hitem, hitems⟩ := Space.deviceCutFreeBlock_located hcut
    have hsame : (sp.itemFree a).items = m.space.items := by
      have hfilter : m.space.items.filter (· ≠ a) = m.space.items :=
        List.filter_eq_self.mpr fun b hb => decide_eq_true fun he => hfresh (he ▸ hb)
      show sp.items.filter _ = _
      rcases hitems with ⟨-, hi⟩ | ⟨-, -, hi⟩
      · rw [hi]
        exact hfilter
      · rw [hi, List.filter_cons_of_neg (by simp)]
        exact hfilter
    refine h.booked.frame (List.suffix_refl _) rfl hsame (fun b hb => ?_) (fun _ _ hl => hl) (fun _ => Iff.rfl) (fun _ => Booked.sameBooks_refl _)
      (fun _ => .refl _) rfl fun _ _ hL => hL
    have hba : b ≠ a := fun he => hfresh (he ▸ hb)
    show Booked.SameEntry _ (sp.item b)
    rw [hitem, show (m.loadDraft s d a x).space.item b = m.space.item b from Function.update_of_ne hba ..]
    exact ⟨rfl, rfl, rfl, rfl⟩
  | @ok a k sp ha hcut hk =>
    have hfresh : a ∉ m.space.items := rt.al.fresh ha
    obtain ⟨hitem, hitems⟩ := Space.deviceCutFreeBlock_located hcut
    have hdraft : (m.loadDraft s d a x).space.item a = { m.space.item a with
        putting := false, badblock := false, deleted := false, used := 0, clear := 0
        serverIndex := (m.server s).index, length := x.length, expire := x.expire, headersLen := x.headersLen
        offset := (x.offset % (2 ^ 40 : Nat)).toNat, deviceIndex := (m.space.device d).index } := Function.update_self ..
    have hself : (({ m.loadDraft s d a x with space := sp } : Master).enter rt s d a k x).space.item a =
        { (m.loadDraft s d a x).space.item a with id := x.hashId } := by
      rw [← hitem]
      exact Function.update_self ..
    obtain ⟨hsize, hi⟩ : k = ipbucketBlockSize x.length ∧ sp.items = a :: m.space.items := by
      rcases hitems with ⟨h0, -⟩ | ⟨hs, -, hi⟩
      · exact absurd h0 hk
      · rw [hdraft] at hs
        exact ⟨hs, hi⟩
    refine h.booked.insert (s := s) (a := a) (c := rt.calloc (m.calls + 1)) hfresh hs (h.recent.absent_of_get ha) rfl hi (fun b hb => ?_) (by rw [hself, hdraft])
      (by rw [hself, hdraft]) rfl rfl rfl rfl ?_ ?_ rfl rfl
    · show Function.update sp.item a _ b = _
      rw [Function.update_of_ne hb, hitem]
      exact Function.update_of_ne hb ..
    · rw [hself, hdraft, ← hsize]
      rfl
    · rw [itemNode, hself]
      rfl

/-! ## Servers -/

theorem serverDelete (h : Audited m) (hs : s ∈ m.servers) : Audited (m.serverDelete s) :=
  ⟨h.recent.serverDelete hs, h.passbys.frame rfl rfl rfl (Nat.le_refl _) fun _ _ _ hh => hh,
    h.booked.frame (List.suffix_refl _) rfl rfl (fun _ _ => ⟨rfl, rfl, rfl, rfl⟩) (fun _ _ hl => hl)
      (fun _ => mem_serverDelete hs) (Booked.sameBooks_update ⟨rfl, rfl, rfl, rfl, rfl⟩) (fun _ => .refl _) rfl fun _ _ hL => hL⟩

theorem serverUpdate {conf : ServerConf} (h : Audited m) (hs : s ∈ m.servers) : Audited (m.serverUpdate s conf) :=
  ⟨h.recent.serverUpdate hs, h.passbys.frame rfl rfl rfl (Nat.le_refl _) fun _ _ _ hh => hh,
    h.booked.frame (List.suffix_refl _) rfl rfl (fun _ _ => ⟨rfl, rfl, rfl, rfl⟩) (fun _ _ hl => hl)
      (fun _ => mem_serverUpdate hs) (Booked.sameBooks_update ⟨rfl, rfl, rfl, rfl, rfl⟩) (fun _ => .refl _) rfl fun _ _ hL => hL⟩

/-- A new server has empty books. -/
theorem serverCreate {conf : ServerConf} (h : Audited m) (hc : m.serverCreate conf = some m') : Audited m' := by
  refine ⟨h.recent.serverCreate hc, h.passbys.serverCreate hc, ?_⟩
  have hmem := fun x (hx : x ∈ m'.allServers) => TableInv.mem_create hc hx
  unfold Master.serverCreate at hc
  obtain ⟨⟨i, t⟩, -, hc⟩ := Option.bind_eq_some_iff.mp hc
  obtain ⟨hash, hinit, hc⟩ := Option.bind_eq_some_iff.mp hc
  cases hc
  have hlt : ∀ x ∈ m.allServers, x ≠ m.serverTotal := fun x hx => (h.recent.table.total x hx).ne
  refine ⟨h.booked.nodup, h.booked.bound, fun a ha => ?_, fun x a hl ha => ?_, fun x hx => ?_⟩
  rotate_left
  · have hl : a ∈ Function.update m.lru (some m.serverTotal) [] (some x) := hl
    by_cases hx : x = m.serverTotal
    · rw [hx, Function.update_self] at hl
      cases hl
    · rw [Function.update_of_ne fun he => hx (Option.some.inj he)] at hl
      exact h.booked.listed x a hl ha
  rotate_right
  · obtain ⟨x, hx, hhome, hidx⟩ := h.booked.home a ha
    refine ⟨x, ?_, hhome, ?_⟩
    · simp only [allServers, List.mem_append, List.mem_singleton] at hx ⊢
      tauto
    · show _ = (Function.update m.server m.serverTotal _ x).index
      rw [Function.update_of_ne (hlt x hx)]
      exact hidx
  show Ledger (m.itemsOf x) m.space.item (Function.update m.passbyLru m.serverTotal [] x) m.passby
    (Function.update m.server m.serverTotal _ x) (Function.update m.hash m.serverTotal hash x)
  rcases hmem x hx with rfl | hx
  · -- No item was stored on it.
    have hnone : m.itemsOf m.serverTotal = [] := by
      refine List.filter_eq_nil_iff.mpr fun a ha hhome => ?_
      obtain ⟨x, hx, hh, -⟩ := h.booked.home a ha
      exact hlt x hx (Option.some.inj (hh.symm.trans (of_decide_eq_true hhome)))
    rw [hnone, Function.update_self, Function.update_self, Function.update_self]
    exact ⟨List.nodup_nil, List.nodup_nil, rfl, rfl, rfl, rfl, (hashInit_rep hinit).toHashHolds⟩
  · rw [Function.update_of_ne (hlt x hx), Function.update_of_ne (hlt x hx), Function.update_of_ne (hlt x hx)]
    exact h.booked.ledger x hx

theorem serverConfLoad {plan : List ServerPlan} (h : Audited m) (hplan : ServerPlanOk m plan)
    (hl : m.serverConfLoad plan = some m') : Audited m' :=
  serverConfLoad_rule (P := Audited) (fun _ h => (List.nodup_append.mp h.recent.table.nodup).1) (fun h hs => h.serverDelete hs)
    (fun h hs => h.serverUpdate hs) (fun h hc => h.serverCreate hc) hplan h hl

/-- Only a server without items is freed. -/
theorem frees : Evictions.Frees Audited where
  nodup h := Recent.frees.nodup h.recent
  free {m s t} h hs ht hi hp := by
    refine ⟨Recent.frees.free h.recent hs ht hi hp, (Passbys.frees _).free ⟨h.recent, h.passbys⟩ hs ht hi hp |>.2,
      h.booked.nodup, h.booked.bound, fun a ha => ?_, h.booked.listed, fun x hx => ?_⟩
    · obtain ⟨x, hx, hhome, hidx⟩ := h.booked.home a ha
      have hnone : m.itemsOf s = [] := by
        have hnr := (h.booked.ledger s (List.mem_append_right _ hs)).itemNr
        rw [hi] at hnr
        exact List.length_eq_zero_iff.mp (by omega)
      have hxs : x ≠ s := by
        rintro rfl
        have hmem : a ∈ m.itemsOf x := mem_itemsOf.mpr ⟨ha, hhome⟩
        rw [hnone] at hmem
        cases hmem
      refine ⟨x, ?_, hhome, hidx⟩
      rcases List.mem_append.mp hx with hx | hx
      · exact List.mem_append_left _ hx
      · exact List.mem_append_right _ ((List.mem_erase_of_ne hxs).mpr hx)
    · exact h.booked.ledger x ((List.Sublist.append_left List.erase_sublist _).subset hx)

end Audited

/-! ## Every run -/

/-- **One step** of the master. -/
theorem masterStep_audited {rt : Runtime} {m m' : Master} {e : MasterEvent} (ha : Audited m) (hl : LinkInv m.space)
    (hok : Substantial m e) (h : masterStep rt m e = some m') : Audited m' := by
  refine ⟨masterStep_recent ha.recent h, (masterStep_passbys ⟨ha.recent, ha.passbys⟩ (fun _ _ => trivial) h).2, ?_⟩
  have hb := ha.booked
  cases e with
  | tick now =>
    obtain ⟨-, h⟩ := Option.ite_none_right_eq_some.mp h
    cases h
    exact hb.same (List.suffix_refl _) rfl ⟨rfl, rfl⟩ rfl rfl (fun _ => Booked.sameBooks_refl _) rfl rfl rfl
  | accept s r old buffer total =>
    obtain ⟨-, h⟩ := Option.ite_none_right_eq_some.mp h
    cases h
    exact hb.same (List.suffix_refl _) rfl ⟨rfl, rfl⟩ rfl rfl (Booked.sameBooks_update ⟨rfl, rfl, rfl, rfl, rfl⟩) rfl rfl rfl
  | conn r e =>
    obtain ⟨-, h⟩ := Option.ite_none_right_eq_some.mp h
    obtain ⟨c, -, rfl⟩ := Option.map_eq_some_iff.mp h
    exact hb.same (List.suffix_refl _) rfl ⟨rfl, rfl⟩ rfl rfl (fun _ => Booked.sameBooks_refl _) rfl rfl rfl
  | handle r dispatch send =>
    obtain ⟨⟨-, hs⟩, h⟩ := Option.ite_none_right_eq_some.mp h
    rcases handle_cases h with ⟨o, x, m₁, c, -, hc, -, rfl⟩ | ⟨o, rc, c, -, -, -, rfl⟩
    · have h₁ := ha.callCase hl hs hok hc
      exact h₁.same (List.suffix_refl _) rfl ⟨rfl, rfl⟩ rfl rfl (fun _ => Booked.sameBooks_refl _) rfl rfl rfl
    · exact hb.same (List.suffix_refl _) rfl ⟨rfl, rfl⟩ rfl rfl (fun _ => Booked.sameBooks_refl _) rfl rfl rfl
  | finish r =>
    obtain ⟨-, h⟩ := Option.ite_none_right_eq_some.mp h
    obtain ⟨m₁, hf, hm⟩ := requestDoFinalize_cases h
    have h₁ := ha.finalized hf
    rcases hm with ⟨-, rfl⟩ | ⟨-, rfl⟩
    · exact h₁.same (List.suffix_refl _) rfl ⟨rfl, rfl⟩ rfl rfl (Booked.sameBooks_update ⟨rfl, rfl, rfl, rfl, rfl⟩) rfl rfl rfl
    · exact h₁.same (List.suffix_refl _) rfl ⟨rfl, rfl⟩ rfl rfl (fun _ => Booked.sameBooks_refl _) rfl rfl rfl
  | clear port =>
    obtain ⟨s, -, rfl⟩ := Option.map_eq_some_iff.mp h
    exact hb.same (List.suffix_cons ..) rfl ⟨rfl, rfl⟩ rfl rfl (Booked.sameBooks_update ⟨rfl, rfl, rfl, rfl, rfl⟩) rfl rfl rfl
  | reload env conf =>
    unfold masterStep at h
    simp only at h
    split at h
    · next devices servers _ hplan =>
      unfold confLoad at h
      obtain ⟨sp, hsp, h⟩ := Option.bind_eq_some_iff.mp h
      have hplan := (serverConfCheck_ok hplan).1
      exact ((ha.space (.deviceConfLoad hsp)).serverConfLoad ⟨hplan.ports, hplan.existing, hplan.count⟩ h).booked
    · cases h
  | load d io image =>
    obtain ⟨-, h⟩ := Option.ite_none_right_eq_some.mp h
    obtain ⟨⟨ok, image', m₁⟩, h₁, rfl⟩ := Option.map_eq_some_iff.mp h
    exact (formatLoadDevice_rule (P := Audited)
      (fun h hs hx => h.loadCase (List.mem_append_left _ hs) (serverLoadFmItem_cases hx))
      (fun h hp => h.space (.loadPost hp)) ha h₁).booked
  | serverRoutine => exact ((Audited.evictions rt).serverRoutine Audited.frees ha h).booked
  | deviceRoutine => exact ((Audited.steps rt).deviceRoutine ha h).booked

/-- **Every run** that asks for no empty block. -/
theorem audited_run {rt : Runtime} {m : Master} (h : (masterSystem rt).Reach Substantial m) : Audited m := by
  refine h.invariant (fun m hm => ?_) fun m e m' hr ha hok hn => masterStep_audited ha (links_run hr) hok hn.1
  have hr := recent_run (.init hm)
  obtain ⟨now, rfl⟩ := hm
  exact ⟨hr, ⟨.nil, fun _ _ => rfl, nofun⟩, List.nodup_nil, nofun, nofun, nofun, nofun⟩

/-! ## The bookkeeping -/

def isPassby : Entry → Bool
  | .item _ => false
  | .passby _ => true

/-- The counters of server `s`, and what its hash leads to. -/
structure ServerBooks (s : Nat) (m : Master) : Prop where
  itemNr : (m.server s).itemNr = (m.itemsOf s).length
  content : (m.server s).content = ((m.itemsOf s).map fun a => (m.space.item a).length).sum
  consumed : (m.server s).consumed = ((m.itemsOf s).map fun a => ipbucketBlockSize (m.space.item a).length).sum
  passbyItemNr : (m.server s).passbyItemNr = (m.passbyLru s).length
  hash : ∃ l, HashHolds (m.hash s) l ∧
    (∀ a ∈ m.itemsOf s, itemNode m.space.item a ∈ l ↔ (m.space.item a).deleted = false) ∧
    (l.countP fun n => isPassby n.node) = (m.passbyLru s).length ∧
    (m.hash s).items = ((m.itemsOf s).countP fun a => !(m.space.item a).deleted) + (m.passbyLru s).length

/-- The lists an item is in, and the books of the servers. -/
structure Bookkeeping (m : Master) : Prop where
  ordered : ∀ a ∈ m.space.items, ∃ d, (m.space.order d).count (.item a) = 1 ∧ ∀ d', .item a ∈ m.space.order d' → d' = d
  home : ∀ a ∈ m.space.items, ∃ s ∈ m.allServers, m.home a = some s ∧ (m.space.item a).serverIndex = (m.server s).index
  listed : ∀ a ∈ m.space.items, ∃ l, (l = none ∨ l = m.home a) ∧ (m.lru l).count a = 1 ∧ ∀ l', a ∈ m.lru l' → l' = l
  servers : ∀ s ∈ m.allServers, m.ServerBooks s

theorem countP_entries (l : List Nat) (item : Nat → Item) (ps : List Nat) (passby : Nat → Passby) :
    ((entries l item ps passby).countP fun n => isPassby n.node) = ps.length := by
  have hitems : (((l.filter fun a => !(item a).deleted).map (itemNode item)).countP fun n => isPassby n.node) = 0 := by
    rw [List.countP_eq_zero]
    intro n hn
    obtain ⟨a, -, rfl⟩ := List.mem_map.mp hn
    exact Bool.false_ne_true
  have hpassbys : ((ps.map (passbyNode passby)).countP fun n => isPassby n.node) = ps.length := by
    rw [List.countP_eq_length.mpr, List.length_map]
    intro n hn
    obtain ⟨p, -, rfl⟩ := List.mem_map.mp hn
    rfl
  rw [entries, List.countP_append, hitems, hpassbys, Nat.zero_add]

theorem Booked.serverBooks (h : Booked m) (hs : s ∈ m.allServers) : m.ServerBooks s := by
  have hL := h.ledger s hs
  refine ⟨hL.itemNr, hL.content, hL.consumed, hL.passbyItemNr, _, hL.hash, fun a ha => ?_, countP_entries .., ?_⟩
  · rw [itemNode_mem, and_iff_right ha]
  · rw [hL.hash.items, entries, List.length_append, List.length_map, List.length_map, List.countP_eq_length_filter,
      Int.natCast_add]

/-- **The bookkeeping of items and servers** is right in every run that asks
for no empty block. -/
theorem bookkeeping_run {rt : Runtime} {m : Master} (h : (masterSystem rt).Reach Substantial m) : Bookkeeping m := by
  have hlinks := (links_run h).order.owned
  have haudit := audited_run h
  obtain ⟨hrecent, hfiled⟩ := filed_run h.reachable
  refine ⟨fun a ha => ?_, haudit.booked.home, fun a ha => ?_, fun s hs => haudit.booked.serverBooks hs⟩
  · obtain ⟨d, hd⟩ := (hlinks.covers (.item a)).mp (Space.mem_nodes_item.mpr ha)
    exact ⟨d, List.count_eq_one_of_mem (hlinks.nodup d) hd, fun d' hd' => hlinks.unique hd' hd⟩
  · obtain ⟨l, hl⟩ := hfiled.filed a ha nofun
    refine ⟨l, ?_, List.count_eq_one_of_mem (hrecent.ranked.nodup l) hl, fun l' hl' => hfiled.once l' l a hl' hl⟩
    cases l with
    | none => exact .inl rfl
    | some s => exact .inr (haudit.booked.listed s a hl ha).symm

/-- `/a` is stored, and the books have it. -/
theorem bookkeeping_stored : ∃ m, (masterSystem .plain).Reach Substantial m ∧ m.space.items = [1] ∧
    (m.server 0).itemNr = 1 ∧ (m.server 0).consumed = 512 ∧ Bookkeeping m := by
  have hrun : (System.run (System.guarded Substantial (masterStep .plain)) (Process.boot 0).master (storingOn 0 "a")).map
      (fun m => (m.space.items, (m.server 0).itemNr, (m.server 0).consumed)) = some ([1], 1, 512) := by
    decide +kernel
  obtain ⟨m, hm, hview⟩ := Option.map_eq_some_iff.mp hrun
  simp only [Prod.mk.injEq] at hview
  have hr : (masterSystem .plain).Reach Substantial m := masterSystem_guarded rfl (.init ⟨0, rfl⟩) hm
  exact ⟨m, hr, hview.1, hview.2.1, hview.2.2, bookkeeping_run hr⟩

/-! ## An empty record -/

/-- What `format_load_device` does with its only record. -/
def loadOne (rt : Runtime) (s d : Nat) (x : FormatItem) (m : Master) : Option Master :=
  (m.serverLoadFmItem rt s d x).bind fun m => (m.space.deviceLoadPost d).map fun sp => { m with space := sp }

/-- The program has started, and device `d` can be loaded. -/
structure Starting (d : Nat) (m : Master) : Prop where
  device : d ∈ m.space.devices
  requests : m.requests = []
  log : m.log = []
  now : m.now = 0
  port : m.serverByPort 80 = some 0

instance (d : Nat) (m : Master) : Decidable (Starting d m) :=
  decidable_of_iff (d ∈ m.space.devices ∧ m.requests = [] ∧ m.log.length = 0 ∧ m.now = 0 ∧ m.serverByPort 80 = some 0)
    ⟨fun ⟨hd, hr, hl, hn, hp⟩ => ⟨hd, hr, List.length_eq_zero_iff.mp hl, hn, hp⟩,
      fun h => ⟨h.device, h.requests, by rw [h.log]; rfl, h.now, h.port⟩⟩

theorem Starting.booting {d : Nat} {m : Master} (h : Starting d m) : m.Booting :=
  ⟨h.requests, by rw [h.log]; exact nofun⟩

/-- A record that is past the table, has not expired, and is of the server at
port 80. -/
theorem Starting.load {rt : Runtime} {d : Nat} {x : FormatItem} {old image : Image} {m m' : Master} (h : Starting d m)
    (hs : Stored (fun _ => 80) [x] old image) (hidx : x.serverIndex = 0)
    (hx : ¬(x.offset < toI64 (ohcFmInfoSize + 1 * formatItemSize) ∨ x.expire ≤ 0)) (hload : m.loadOne rt 0 d x = some m') :
    masterStep rt m (.load d plainIo image) = some m' := by
  obtain ⟨p, hinfo, hp⟩ := hs.info
  obtain ⟨m₁, hm₁, hload⟩ := Option.bind_eq_some_iff.mp hload
  obtain ⟨sp, hsp, rfl⟩ := Option.map_eq_some_iff.mp hload
  have hrecord : recordAt image 0 = x := hs.record 0 (by simp)
  have hp0 : p 0 = 80 := hp 0 (by decide)
  have hitems : m.loadItems rt plainIo d image (toI64 (ohcFmInfoSize + 1 * formatItemSize)) p 1 0 = some (true, m₁) := by
    rw [loadItems_succ, hrecord, if_neg (by simp [plainIo]), h.now, if_neg hx, hidx, Int.toNat_zero, hp0, h.port,
      Option.elim_some, hm₁, Option.bind_some, if_neg (by decide)]
    rfl
  have hdevice : m.formatLoadDevice rt plainIo d image =
      some (true, imageWrite 0 (lit "FeiLiWuShi") image, { m₁ with space := sp }) := by
    rw [formatLoadDevice_eq, hinfo, Option.elim_some, loadAccepted]
    show (if _ then _ else Option.bind (m.loadItems rt plainIo d image (toI64 (ohcFmInfoSize + 1 * formatItemSize)) p 1 0) _) = _
    rw [hitems]
    simp only [plainIo, Option.bind_eq_bind, Option.bind_some, Bool.not_true, Bool.or_false, Bool.false_eq_true, if_false,
      if_true]
    rw [hsp]
    rfl
  show (if d ∈ m.space.devices then _ else _) = _
  rw [if_pos h.device, hdevice]
  rfl

/-- A record of length 0. -/
def emptyRecord : FormatItem := { storedRecord 0 with length := 0 }

/-- Two devices, loaded one after the other. The dump of the first one has an
empty record: `device_cut_free_block` links its item and returns 0, so that
the item is freed in its place in the list. The item of the second device
gets the same memory, and is in both lists. -/
theorem bookkeeping_empty_record : ∃ image₁ image₂ m m', recordsOn plainIo image₁ = [emptyRecord] ∧
    recordsOn plainIo image₂ = [storedRecord 0] ∧
    masterStep .plain (Process.boot 0).master (.reload LoadEnv.twoFiles (Conf.onDevices ["a", "b"])) = some m ∧
    System.run (masterStep .plain) m [.load 1 plainIo image₁, .load 2 plainIo image₂] = some m' ∧
    (masterSystem .plain).Reachable m' ∧ ¬Bookkeeping m' := by
  have hstored : ∀ n < 2 ^ 32, ∃ image, Stored (fun _ => 80) [{ storedRecord 0 with length := n }] (fun _ => 0) image := by
    intro n hn
    have htyped : ∀ x ∈ [{ storedRecord 0 with length := n }], x.Typed := by
      intro x hx
      rw [List.mem_singleton.mp hx]
      constructor <;> simp only [storedRecord] <;> omega
    have hpad : [0, 0, 0, (0 : UInt8)].length = 4 := rfl
    exact ⟨_, dumpImage_stored (fun _ => 0) hpad (fun _ => hpad) (fun _ => by decide) htyped (by simp)⟩
  obtain ⟨image₁, hs₁⟩ := hstored 0 (by decide)
  obtain ⟨image₂, hs₂⟩ := hstored 43 (by decide)
  have hrun : (masterStep .plain (Process.boot 0).master (.reload LoadEnv.twoFiles (Conf.onDevices ["a", "b"]))).bind (fun m =>
      (m.loadOne .plain 0 1 emptyRecord).bind fun m₁ => (m₁.loadOne .plain 0 2 (storedRecord 0)).map fun m₂ =>
        (m₂.space.items, [decide (Starting 1 m), decide (Starting 2 m₁),
          decide (.item 1 ∈ m₂.space.order 1), decide (.item 1 ∈ m₂.space.order 2)])) =
      some ([1], [true, true, true, true]) := by
    decide +kernel
  obtain ⟨m, hm, hrun⟩ := Option.bind_eq_some_iff.mp hrun
  obtain ⟨m₁, h₁, hrun⟩ := Option.bind_eq_some_iff.mp hrun
  obtain ⟨m₂, h₂, hview⟩ := Option.map_eq_some_iff.mp hrun
  simp only [Prod.mk.injEq, List.cons.injEq, decide_eq_true_eq, and_true] at hview
  obtain ⟨hitems, hstart₁, hstart₂, horder₁, horder₂⟩ := hview
  have hoffset : ¬((1048064 : Int) < toI64 (ohcFmInfoSize + 1 * formatItemSize) ∨ (259200 : Int) ≤ 0) := by decide
  have hstep₁ := hstart₁.load hs₁ rfl hoffset h₁
  have hstep₂ := hstart₂.load hs₂ rfl hoffset h₂
  have hboot : (masterSystem .plain).Reachable (Process.boot 0).master := .init ⟨0, rfl⟩
  have hr := hboot.step (a := .reload LoadEnv.twoFiles (Conf.onDevices ["a", "b"]))
    ⟨hm, fun _ _ _ he => MasterEvent.noConfusion he⟩
  have hr₁ := hr.step (a := .load 1 plainIo image₁) ⟨hstep₁, fun _ _ _ _ => hstart₁.booting⟩
  have hr₂ := hr₁.step (a := .load 2 plainIo image₂) ⟨hstep₂, fun _ _ _ _ => hstart₂.booting⟩
  refine ⟨image₁, image₂, m, m₂, hs₁.recordsOn, hs₂.recordsOn, hm, ?_, hr₂, fun hb => ?_⟩
  · rw [System.run, hstep₁, Option.bind_some, System.run, hstep₂, Option.bind_some, System.run]
  · obtain ⟨d, -, hd⟩ := hb.ordered 1 (by rw [hitems]; exact List.mem_singleton_self 1)
    have h12 := (hd 1 horder₁).trans (hd 2 horder₂).symm
    cases h12

end Master

end OliveHc
