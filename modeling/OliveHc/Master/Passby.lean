/-
The filter for cold items (`server_passby_store`).

A store that finds nothing for its id leaves a record, and the next one for
the id is a real store. A record is given up when a store or a purge finds
it, or from the end of the list of its server; a GET only moves it to the
front. `server_request_put_handler` does not look at the time at which the
record expires: it counts as long as it is in the hash.
-/
import OliveHc.Master.Admission
import OliveHc.Master.Recency

namespace OliveHc

namespace Master

/-- **The records of the servers.** Each is in the list of one server, and a
node of a hash leads to a record of the server with its id; `R` holds of the
server, the id and the time at which the record expires. -/
structure Passbys (R : Nat → HashId → Int → Prop) (m : Master) : Prop where
  owned : Owned m.passbyLru m.passbys
  unborn : ∀ s, m.serverTotal ≤ s → m.passbyLru s = []
  linked : ∀ s id p, (m.hash s).Has ⟨id, .passby p⟩ →
    p ∈ m.passbyLru s ∧ (m.passby p).id = id ∧ R s id (m.passby p).expire

namespace Passbys

variable {rt : Runtime} {R : Nat → HashId → Int → Prop} {m m' : Master} {s a p : Nat}

theorem mono {R' : Nat → HashId → Int → Prop} (h : Passbys R m) (hR : ∀ s id x, R s id x → R' s id x) : Passbys R' m :=
  ⟨h.owned, h.unborn, fun s id p hh => ⟨(h.linked s id p hh).1, (h.linked s id p hh).2.1, hR _ _ _ (h.linked s id p hh).2.2⟩⟩

/-- The records stay as they are, and nothing new leads to them. -/
theorem frame (h : Passbys R m) (hlru : m'.passbyLru = m.passbyLru) (hps : m'.passbys = m.passbys)
    (hp : m'.passby = m.passby) (htotal : m.serverTotal ≤ m'.serverTotal)
    (hhash : ∀ s id p, (m'.hash s).Has ⟨id, .passby p⟩ → (m.hash s).Has ⟨id, .passby p⟩) : Passbys R m' := by
  refine ⟨?_, fun s hs => ?_, fun s id p hh => ?_⟩
  · rw [hlru, hps]
    exact h.owned
  · rw [hlru]
    exact h.unborn s (Nat.le_trans htotal hs)
  · rw [hlru, hp]
    exact h.linked s id p (hhash s id p hh)

theorem space (h : Passbys R m) (sp : Space) : Passbys R { m with space := sp } :=
  h.frame rfl rfl rfl (Nat.le_refl _) fun _ _ _ hh => hh

/-! ## Making room -/

theorem itemDelete_same (hd : m.serverItemDelete rt a = some m') :
    m'.passbyLru = m.passbyLru ∧ m'.passbys = m.passbys ∧ m'.passby = m.passby := by
  unfold Master.serverItemDelete at hd
  split at hd
  · cases hd
  obtain ⟨s, -, hd⟩ := Option.bind_eq_some_iff.mp hd
  obtain ⟨m₁, hm₁, h₁⟩ : ∃ m₁, (if (m.space.item a).deleted = true then m else
      m.unlink s ⟨(m.space.item a).id, .item a⟩) = m₁ ∧
      m₁.passbyLru = m.passbyLru ∧ m₁.passbys = m.passbys ∧ m₁.passby = m.passby := by
    refine ⟨_, rfl, ?_⟩
    split <;> exact ⟨rfl, rfl, rfl⟩
  simp only [hm₁] at hd
  split at hd
  · cases hd
    exact h₁
  · obtain ⟨⟨k, sp⟩, -, hd⟩ := Option.bind_eq_some_iff.mp hd
    cases hd
    exact h₁

theorem serverItemDelete (h : Passbys R m) (hd : m.serverItemDelete rt a = some m') : Passbys R m' := by
  obtain ⟨hlru, hps, hp⟩ := itemDelete_same hd
  have he := Evicted.serverItemDelete hd
  exact h.frame hlru hps hp (Nat.le_of_eq he.serverTotal.symm) fun s id p hh => he.hash s _ hh

/-- **A record is given up**, and with it the node that leads to it. -/
theorem passbyItemDelete (h : Passbys R m) (hp : p ∈ m.passbyLru s) : Passbys R (m.serverPassbyItemDelete s p) := by
  have herase : (m.passbyLru s).Perm (p :: (m.passbyLru s).erase p) := List.perm_cons_erase hp
  have hne : s < m.serverTotal := by
    by_contra hle
    rw [h.unborn s (Nat.not_lt.mp hle)] at hp
    cases hp
  refine ⟨h.owned.lose herase, fun x hx => ?_, fun x id q hh => ?_⟩
  · have hxs : x ≠ s := fun he => absurd hx (Nat.not_le.mpr (he ▸ hne))
    show Function.update m.passbyLru s _ x = []
    rw [Function.update_of_ne hxs]
    exact h.unborn x hx
  · have hold : (m.hash x).Has ⟨id, .passby q⟩ := (Evicted.passbyItemDelete s p m).hash x _ hh
    obtain ⟨hq, hid, hR⟩ := h.linked x id q hold
    have hqp : q ≠ p := by
      intro he
      subst he
      have hxs : x = s := h.owned.unique hq hp
      subst hxs
      have hh : (Function.update m.hash x (hashDel (m.hash x) ⟨(m.passby q).id, .passby q⟩) x).Has ⟨id, .passby q⟩ := hh
      rw [Function.update_self, hid] at hh
      exact (hashDel_has.mp hh).2 rfl
    refine ⟨?_, hid, hR⟩
    show q ∈ Function.update m.passbyLru s _ x
    by_cases hxs : x = s
    · rw [hxs, Function.update_self]
      exact (List.mem_erase_of_ne hqp).mpr (hxs ▸ hq)
    · rw [Function.update_of_ne hxs]
      exact hq

theorem expirePassbys {l : List Nat} {count : Nat} (h : Passbys R m) (hl : l.Nodup) (hmem : ∀ p ∈ l, p ∈ m.passbyLru s) :
    Passbys R (m.expirePassbys s count l) := by
  induction l generalizing m count with
  | nil => exact h
  | cons p l ih =>
    have hp := hmem p List.mem_cons_self
    unfold Master.expirePassbys
    simp only
    split
    · exact h
    · split
      · exact h.passbyItemDelete hp
      · -- the rest of the list is still there
        refine ih (h.passbyItemDelete hp) (List.nodup_cons.mp hl).2 fun q hq => ?_
        have hqp : q ≠ p := fun he => (List.nodup_cons.mp hl).1 (he ▸ hq)
        show q ∈ Function.update m.passbyLru s _ s
        rw [Function.update_self]
        exact (List.mem_erase_of_ne hqp).mpr (hmem q (List.mem_cons_of_mem p hq))

theorem expireAll {count : Nat} (h : Passbys R m) : Passbys R (m.expirePassbys s count (m.passbyLru s).reverse) :=
  h.expirePassbys (List.nodup_reverse.mpr (h.owned.nodup s)) fun _ hp => List.mem_reverse.mp hp

theorem evictions (rt : Runtime) (R : Nat → HashId → Int → Prop) : Evictions rt (fun _ => True) (Passbys R) :=
  ⟨fun _ _ _ => trivial, fun h _ hd => h.serverItemDelete hd, fun h => h.expireAll⟩

theorem steps (rt : Runtime) (R : Nat → HashId → Int → Prop) : (Master.host rt).Steps (Passbys R) :=
  ⟨fun h _ => h.space _, fun h hd => h.serverItemDelete hd, fun h => h.space _⟩

/-! ## Requests -/

theorem lookup (h : Passbys R m) (s : Nat) (key : List UInt8) : Passbys R (m.lookup rt s key).2 := by
  refine h.frame rfl rfl rfl (Nat.le_refl _) fun x id p hh => ?_
  have hh : (Function.update m.hash s _ x).Has ⟨id, .passby p⟩ := hh
  by_cases hx : x = s
  · rw [hx, Function.update_self] at hh
    rw [hx]
    exact hashGet_has.1 _ hh
  · rwa [Function.update_of_ne hx] at hh

/-- A record that a lookup finds. -/
theorem lookup_linked (h : Passbys R m) {key : List UInt8} {id : HashId} (hn : (m.lookup rt s key).1 = some ⟨id, .passby p⟩) :
    p ∈ m.passbyLru s ∧ id = rt.md5 key ∧ (m.passby p).id = id ∧ R s id (m.passby p).expire := by
  obtain ⟨hh, hid⟩ := hashGet_has.2 _ hn
  obtain ⟨h1, h2, h3⟩ := h.linked s id p hh
  exact ⟨h1, hid, h2, h3⟩

theorem note {x : Happening} (h : Passbys R m) : Passbys R (m.note x) :=
  h.frame rfl rfl rfl (Nat.le_refl _) fun _ _ _ hh => hh

/-- A GET brings the record to the front. -/
theorem front (h : Passbys R m) (hp : p ∈ m.passbyLru s) :
    Passbys R { m with passbyLru := Function.update m.passbyLru s (p :: (m.passbyLru s).erase p) } := by
  have hperm : (p :: (m.passbyLru s).erase p).Perm (m.passbyLru s) := (List.perm_cons_erase hp).symm
  have hmem : ∀ x q, q ∈ m.passbyLru x → q ∈ Function.update m.passbyLru s (p :: (m.passbyLru s).erase p) x := by
    intro x q hq
    by_cases hx : x = s
    · rw [hx, Function.update_self]
      exact hperm.mem_iff.mpr (hx ▸ hq)
    · rwa [Function.update_of_ne hx]
  refine ⟨h.owned.reorder hperm, fun x hx => ?_, fun x id q hh => ?_⟩
  · have hxs : x ≠ s := by
      intro he
      rw [← he, h.unborn x hx] at hp
      cases hp
    show Function.update m.passbyLru s _ x = []
    rw [Function.update_of_ne hxs]
    exact h.unborn x hx
  · obtain ⟨hq, hid, hR⟩ := h.linked x id q hh
    exact ⟨hmem x q hq, hid, hR⟩

theorem getCase {n : Option (HashNode Entry)} {o : Option Nat} (h : Passbys R m)
    (hn : ∀ id p, n = some ⟨id, .passby p⟩ → p ∈ m.passbyLru s) (hc : GetCase rt s n m o m') : Passbys R m' := by
  cases hc with
  | miss | hidden => exact h
  | passby => exact h.front (hn _ _ rfl)
  | stale _ hd => exact h.serverItemDelete hd
  | hit => exact h.frame rfl rfl rfl (Nat.le_refl _) fun _ _ _ hh => hh

theorem deleteCase {n : Option (HashNode Entry)} {found : Bool} (h : Passbys R m)
    (hn : ∀ id p, n = some ⟨id, .passby p⟩ → p ∈ m.passbyLru s) (hc : DeleteCase rt s n m found m') : Passbys R m' := by
  cases hc with
  | miss => exact h
  | passby => exact h.passbyItemDelete (hn _ _ rfl)
  | item hd => exact h.serverItemDelete hd

/-- **A new record**, of which `R` has to hold. -/
theorem passbyStore {id : HashId} {ok : Bool} (h : Passbys R m) (hs : s < m.serverTotal)
    (hR : ok = true → R s id (m.now + (m.server s).conf.passbyExpire)) (hp : m.serverPassbyStore rt s id = (ok, m')) :
    Passbys R m' := by
  unfold serverPassbyStore at hp
  simp only at hp
  split at hp
  · cases hp
    exact h
  split at hp
  · cases hp
    exact h.frame rfl rfl rfl (Nat.le_refl _) fun _ _ _ hh => hh
  next p hget =>
  cases hp
  have hfresh : p ∉ m.passbys := rt.al.fresh hget
  refine ⟨h.owned.gain hfresh (List.Perm.refl _), fun x hx => ?_, fun x id' q hh => ?_⟩
  · have hxs : x ≠ s := fun he => absurd hx (Nat.not_le.mpr (he ▸ hs))
    show Function.update m.passbyLru s _ x = []
    rw [Function.update_of_ne hxs]
    exact h.unborn x hx
  · show q ∈ Function.update m.passbyLru s (p :: m.passbyLru s) x ∧ (Function.update m.passby p _ q).id = id' ∧
      R x id' (Function.update m.passby p _ q).expire
    rcases Recent.link_has hh with ⟨rfl, hn⟩ | hh
    · cases hn
      rw [Function.update_self, Function.update_self]
      exact ⟨List.mem_cons_self, rfl, hR rfl⟩
    · obtain ⟨hq, hid, hRq⟩ := h.linked x id' q hh
      have hqp : q ≠ p := fun he => hfresh (he ▸ (h.owned.covers q).mpr ⟨x, hq⟩)
      rw [Function.update_of_ne hqp]
      refine ⟨?_, hid, hRq⟩
      by_cases hx : x = s
      · rw [hx, Function.update_self]
        exact List.mem_cons_of_mem p (hx ▸ hq)
      · rwa [Function.update_of_ne hx]

theorem freed {id : HashId} {n : Option (HashNode Entry)} (h : Passbys R m) (hs : s < m.serverTotal)
    (hn : ∀ id p, n = some ⟨id, .passby p⟩ → p ∈ m.passbyLru s) (hf : Freed rt s id n m m') : Passbys R m' := by
  cases hf with
  | absent hp => exact h.passbyStore hs (fun hok => absurd hok Bool.false_ne_true) hp
  | passby => exact h.passbyItemDelete (hn _ _ rfl)
  | item hd => exact h.serverItemDelete hd

theorem tryAgain {fuel tries k : Nat} (h : Passbys R m) (ht : m.tryAgain rt s a fuel tries = some (k, m')) : Passbys R m' := by
  rcases (evictions rt R).tryAgain (fun h _ => h.space _) (fun h he => (steps rt R).deviceFreeBlockExtend h he) h ht with
    ⟨-, h₁⟩ | ⟨-, m₁, sp, h₁, -, rfl⟩
  · exact h₁
  · exact h₁.space sp

/-- An item is linked. -/
theorem link {id : HashId} (h : Passbys R m) (hlru : m'.passbyLru = m.passbyLru)
    (hps : m'.passbys = m.passbys) (hp : m'.passby = m.passby) (htotal : m'.serverTotal = m.serverTotal)
    (hhash : m'.hash = Function.update m.hash s (hashAdd (rt.calloc m.calls) (m.hash s) ⟨id, .item a⟩)) : Passbys R m' := by
  refine h.frame hlru hps hp (Nat.le_of_eq htotal.symm) fun x id p hh => ?_
  rw [hhash] at hh
  rcases Recent.link_has hh with ⟨-, he⟩ | hh
  · cases he
  · exact hh

theorem storeCase {id : HashId} {length headersLen : Nat} {expire : Int} {rc : PutRc} (h : Passbys R m)
    (hc : StoreCase rt s id length headersLen expire m rc m') : Passbys R m' := by
  have hdraft : ∀ a, Passbys R (m.draft a length headersLen) := fun a =>
    h.frame rfl rfl rfl (Nat.le_refl _) fun _ _ _ hh => hh
  cases hc with
  | noMem => exact h.frame rfl rfl rfl (Nat.le_refl _) fun _ _ _ hh => hh
  | noSpace _ ht => exact ((hdraft _).tryAgain ht).space _
  | ok _ ht => exact ((hdraft _).tryAgain ht).link rfl rfl rfl rfl rfl

theorem putCase {buffer : List UInt8} {r : Request} {rc : PutRc} (h : Passbys R m) (hs : s < m.serverTotal)
    (hR : ∀ key, rc = .decline "StorePassby" → serverKey (m.server s).conf buffer r = some key →
      R s (rt.md5 key) (m.now + (m.server s).conf.passbyExpire))
    (hc : PutCase rt s buffer r m rc m') : Passbys R m' := by
  cases hc with
  | declined => exact h
  | passby hkey _ hp => exact (h.lookup s _).passbyStore hs (fun _ => hR _ rfl hkey) hp
  | exist => exact h.lookup s _
  | store _ _ hf hst =>
    have hn := (h.lookup s _).freed hs (fun id p hn => (h.lookup_linked hn).1) hf
    exact hn.storeCase hst

theorem callCase {buffer : List UInt8} {r : Request} {o : Outcome} {x : Option Nat} (h : Passbys R m) (hs : s < m.serverTotal)
    (hR : ∀ key m', r.method.isStore = true → m.serverRequestPutHandler rt s buffer r = some (.decline "StorePassby", m') →
      serverKey (m.server s).conf buffer r = some key → R s (rt.md5 key) (m.now + (m.server s).conf.passbyExpire))
    (hc : CallCase rt s buffer r m o x m') : Passbys R m' := by
  cases hc with
  | get _ hg =>
    obtain ⟨key, -, hc⟩ := serverRequestGetHandler_cases hg
    exact (h.lookup s key).getCase (fun id p hn => (h.lookup_linked hn).1) hc
  | store _ hp =>
    refine h.putCase hs (fun key hrc _ => ?_) (serverRequestPutHandler_cases hp)
    cases hrc
  | refused hm _ hp =>
    refine h.putCase hs (fun key hrc hkey => ?_) (serverRequestPutHandler_cases hp)
    subst hrc
    exact hR key _ hm hp hkey
  | delete _ hd =>
    obtain ⟨key, -, hc⟩ := serverRequestDeleteHandler_cases hd
    exact (h.lookup s key).note.deleteCase (fun id p hn => (h.lookup_linked hn).1) hc

theorem finalized {q : Req} (h : Passbys R m) (hf : Finalized rt q m m') : Passbys R m' := by
  have hrelease : ∀ a d e, Passbys R (m.release a d e) := fun a d e =>
    h.frame rfl rfl rfl (Nat.le_refl _) fun _ _ _ hh => hh
  unfold Finalized at hf
  split at hf
  · rw [hf]
    exact h
  · cases hf with
    | delete _ _ _ hd => exact (hrelease _ _ _).serverItemDelete hd
    | finished => exact (hrelease _ _ _).note
    | sent => exact hrelease _ _ _

theorem loadCase {d : Nat} {x : FormatItem} (h : Passbys R m) (hc : LoadCase rt s d x m m') : Passbys R m' := by
  have hdraft : ∀ a, Passbys R (m.loadDraft s d a x) := fun a => h.frame rfl rfl rfl (Nat.le_refl _) fun _ _ _ hh => hh
  cases hc with
  | noMem => exact h.frame rfl rfl rfl (Nat.le_refl _) fun _ _ _ hh => hh
  | noFit => exact (hdraft _).space _
  | @ok a k sp => exact ((hdraft a).space sp).link rfl rfl rfl rfl rfl

/-! ## Servers -/

theorem serverCreate {conf : ServerConf} (h : Passbys R m) (hc : m.serverCreate conf = some m') : Passbys R m' := by
  unfold Master.serverCreate at hc
  obtain ⟨⟨i, t⟩, -, hc⟩ := Option.bind_eq_some_iff.mp hc
  obtain ⟨hash, hinit, hc⟩ := Option.bind_eq_some_iff.mp hc
  cases hc
  have hlru : Function.update m.passbyLru m.serverTotal [] = m.passbyLru := by
    rw [← h.unborn m.serverTotal (Nat.le_refl _), Function.update_eq_self]
  refine h.frame hlru rfl rfl (Nat.le_succ _) fun x id p hh => ?_
  have hh : (Function.update m.hash m.serverTotal hash x).Has ⟨id, .passby p⟩ := hh
  by_cases hx : x = m.serverTotal
  · rw [hx, Function.update_self] at hh
    exact absurd ((hashInit_rep hinit).toHashHolds.has_iff.mp hh) List.not_mem_nil
  · rwa [Function.update_of_ne hx] at hh

/-- With the table of the servers, which their deletion relies on. -/
def Kept (R : Nat → HashId → Int → Prop) (m : Master) : Prop := Recent m ∧ Passbys R m

theorem serverConfLoad {plan : List ServerPlan} (h : Kept R m) (hplan : ServerPlanOk m plan)
    (hl : m.serverConfLoad plan = some m') : Kept R m' :=
  serverConfLoad_rule (P := Kept R) (fun _ h => (List.nodup_append.mp h.1.table.nodup).1)
    (fun h hs => ⟨h.1.serverDelete hs, h.2.frame rfl rfl rfl (Nat.le_refl _) fun _ _ _ hh => hh⟩)
    (fun h hs => ⟨h.1.serverUpdate hs, h.2.frame rfl rfl rfl (Nat.le_refl _) fun _ _ _ hh => hh⟩)
    (fun h hc => ⟨h.1.serverCreate hc, h.2.serverCreate hc⟩) hplan h hl

theorem routine (rt : Runtime) (R : Nat → HashId → Int → Prop) : Evictions rt (fun _ => True) (Kept R) :=
  ⟨fun _ _ _ => trivial, fun h _ hd => ⟨h.1.serverItemDelete hd, h.2.serverItemDelete hd⟩,
    fun h => ⟨h.1.expirePassbys, h.2.expireAll⟩⟩

theorem frees (R : Nat → HashId → Int → Prop) : Evictions.Frees (Kept R) where
  nodup h := Recent.frees.nodup h.1
  free h hs ht hi hp := ⟨Recent.frees.free h.1 hs ht hi hp, h.2.frame rfl rfl rfl (Nat.le_refl _) fun _ _ _ hh => hh⟩

end Passbys

/-! ## Runs -/

/-- A store that was recorded: when, and how long records were to last then. -/
structure PassbyRecord where
  server : Nat
  id : HashId
  time : Int
  passbyExpire : Int
deriving DecidableEq

def PassbyRecord.expire (x : PassbyRecord) : Int := x.time + x.passbyExpire

/-- The request of the event is a PUT or a POST to server `s`. -/
def Storing (s r : Nat) (m : Master) : Prop :=
  (m.request r).server = s ∧ (m.connOf r).phase = .parsed .done ∧ (m.connOf r).r.method.isStore = true

instance (s r : Nat) (m : Master) : Decidable (m.Storing s r) := inferInstanceAs (Decidable (_ ∧ _ ∧ _))

/-- The key of the request. -/
def requestKey (s r : Nat) (m : Master) : Option (List UInt8) :=
  serverKey (m.server s).conf (m.connOf r).buffer (m.connOf r).r

/-- What the handler of a PUT or a POST does. -/
def put (rt : Runtime) (s r : Nat) (m : Master) : Option (PutRc × Master) :=
  m.serverRequestPutHandler rt s (m.connOf r).buffer (m.connOf r).r

/-- The record that the event makes. -/
def recorded (rt : Runtime) (m : Master) : MasterEvent → List PassbyRecord
  | .handle r _ _ =>
    let s := (m.request r).server
    if m.Storing s r ∧ (m.put rt s r).map (·.1) = some (.decline "StorePassby") then
      (m.requestKey s r).toList.map fun key => ⟨s, rt.md5 key, m.now, (m.server s).conf.passbyExpire⟩
    else []
  | _ => []

/-- **One step** of the master. -/
theorem masterStep_passbys {rt : Runtime} {R : Nat → HashId → Int → Prop} {m m' : Master} {e : MasterEvent}
    (hk : Passbys.Kept R m) (hR : ∀ x ∈ m.recorded rt e, R x.server x.id x.expire) (h : masterStep rt m e = some m') :
    Passbys.Kept R m' := by
  refine ⟨masterStep_recent hk.1 h, ?_⟩
  have hp := hk.2
  cases e with
  | tick now =>
    obtain ⟨-, h⟩ := Option.ite_none_right_eq_some.mp h
    cases h
    exact hp.frame rfl rfl rfl (Nat.le_refl _) fun _ _ _ hh => hh
  | accept s r old buffer total =>
    obtain ⟨-, h⟩ := Option.ite_none_right_eq_some.mp h
    cases h
    exact hp.frame rfl rfl rfl (Nat.le_refl _) fun _ _ _ hh => hh
  | conn r e =>
    obtain ⟨-, h⟩ := Option.ite_none_right_eq_some.mp h
    obtain ⟨c, -, rfl⟩ := Option.map_eq_some_iff.mp h
    exact hp.frame rfl rfl rfl (Nat.le_refl _) fun _ _ _ hh => hh
  | handle r dispatch send =>
    obtain ⟨⟨-, hs⟩, h⟩ := Option.ite_none_right_eq_some.mp h
    rcases handle_cases h with ⟨o, x, m₁, c, hphase, hc, -, rfl⟩ | ⟨o, rc, c, -, -, -, rfl⟩
    · have hcall := hp.callCase (hk.1.table.total _ hs) (fun key m₂ hst hput hkey => ?_) hc
      · exact hcall.frame rfl rfl rfl (Nat.le_refl _) fun _ _ _ hh => hh
      · -- the record of this step
        refine hR ⟨_, rt.md5 key, m.now, (m.server (m.request r).server).conf.passbyExpire⟩ ?_
        have hrec : m.Storing (m.request r).server r ∧
            (m.put rt (m.request r).server r).map (·.1) = some (.decline "StorePassby") :=
          ⟨⟨rfl, hphase, hst⟩, by rw [put, hput]; rfl⟩
        have hk : m.requestKey (m.request r).server r = some key := hkey
        simp only [recorded, if_pos hrec, hk, Option.toList_some, List.map_cons, List.map_nil, List.mem_singleton]
    · exact hp.frame rfl rfl rfl (Nat.le_refl _) fun _ _ _ hh => hh
  | finish r =>
    obtain ⟨-, h⟩ := Option.ite_none_right_eq_some.mp h
    obtain ⟨m₁, hf, hm⟩ := requestDoFinalize_cases h
    have h₁ := hp.finalized hf
    rcases hm with ⟨-, rfl⟩ | ⟨-, rfl⟩ <;> exact h₁.frame rfl rfl rfl (Nat.le_refl _) fun _ _ _ hh => hh
  | clear port =>
    obtain ⟨s, -, rfl⟩ := Option.map_eq_some_iff.mp h
    exact hp.frame rfl rfl rfl (Nat.le_refl _) fun _ _ _ hh => hh
  | reload env conf =>
    unfold masterStep at h
    simp only at h
    split at h
    · next devices servers _ hplan =>
      unfold confLoad at h
      obtain ⟨sp, hsp, h⟩ := Option.bind_eq_some_iff.mp h
      have hplan := (serverConfCheck_ok hplan).1
      have hk₁ : Passbys.Kept R { m with space := sp } := ⟨hk.1.space (.deviceConfLoad hsp), hp.space sp⟩
      exact (Passbys.serverConfLoad hk₁ ⟨hplan.ports, hplan.existing, hplan.count⟩ h).2
    · cases h
  | load d io image =>
    obtain ⟨-, h⟩ := Option.ite_none_right_eq_some.mp h
    obtain ⟨⟨ok, image', m₁⟩, h₁, rfl⟩ := Option.map_eq_some_iff.mp h
    exact formatLoadDevice_rule (P := Passbys R) (fun hp _ hx => hp.loadCase (serverLoadFmItem_cases hx))
      (fun hp _ => hp.space _) hp h₁
  | serverRoutine => exact ((Passbys.routine rt R).serverRoutine (Passbys.frees R) hk h).2
  | deviceRoutine => exact (Passbys.steps rt R).deviceRoutine hp h

/-- The filter of server `s` is active: it is switched on, both thresholds
are reached, and there is memory for a record. -/
structure FilterActive (rt : Runtime) (s : Nat) (m : Master) : Prop where
  enabled : (m.server s).conf.passbyEnable = true
  items : (m.server s).conf.passbyBeginItemNr ≤ (m.server s).itemNr
  consumed : (m.server s).conf.passbyBeginConsumed ≤ (m.server s).consumed
  memory : rt.al.get (m.calls + 1) m.passbys ≠ none

/-- An active filter makes a record where there is nothing. -/
theorem FilterActive.passbyStore {rt : Runtime} {s : Nat} {m : Master} (h : FilterActive rt s m) (key : List UInt8)
    (id : HashId) : ((m.lookup rt s key).2.serverPassbyStore rt s id).1 = true := by
  unfold serverPassbyStore
  have hserver : (m.lookup rt s key).2.server s = m.server s := rfl
  have hfilter : ¬((!(m.server s).conf.passbyEnable) = true ∨ (m.server s).itemNr < (m.server s).conf.passbyBeginItemNr ∨
      (m.server s).consumed < (m.server s).conf.passbyBeginConsumed) := by
    rw [h.enabled]
    simp only [Bool.not_true, Bool.false_eq_true, false_or, not_or, Int.not_lt, Nat.not_lt]
    exact ⟨h.items, h.consumed⟩
  obtain ⟨p, hp⟩ := Option.ne_none_iff_exists'.mp h.memory
  have hp : rt.al.get (m.lookup rt s key).2.calls (m.lookup rt s key).2.passbys = some p := hp
  simp only [hserver, if_neg hfilter, hp]

end Master

namespace Master

end Master

end OliveHc
