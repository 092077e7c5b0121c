/-
How long a server lives.

A reload only takes a server off the list. It is freed by `server_destroy`,
which looks at its items and records, not at its connections: a server lives
as long as its requests only if, whenever `server_routine` runs, one of its
items is in use while it has a request.
-/
import OliveHc.Master.Audit

namespace OliveHc

namespace Master

/-- The server of every open request is there, and counts it. -/
structure Attached (m : Master) : Prop where
  server : ∀ r ∈ m.requests, (m.request r).server ∈ m.allServers
  connections : ∀ s ∈ m.allServers, (m.server s).connections = (m.requests.countP fun r => (m.request r).server = s : Nat)

/-- An item of server `s` is read or written. -/
def Busy (s : Nat) (m : Master) : Prop := ∃ a ∈ m.itemsOf s, (m.space.item a).used ≠ 0 ∨ (m.space.item a).putting = true

/-- A deleted server with a request is busy. -/
def Held (m : Master) : Prop := ∀ s ∈ m.deletedServers, (∃ r ∈ m.requests, (m.request r).server = s) → m.Busy s

/-- No block is asked for nothing, and `server_routine` runs only while the
deleted servers that have requests are busy. -/
def Draining (m : Master) : MasterEvent → Prop
  | .serverRoutine => m.Held
  | e => Substantial m e

instance (s : Nat) (m : Master) : Decidable (Busy s m) :=
  inferInstanceAs (Decidable (∃ a ∈ m.itemsOf s, (m.space.item a).used ≠ 0 ∨ (m.space.item a).putting = true))

instance (m : Master) : Decidable (Held m) :=
  inferInstanceAs (Decidable (∀ s ∈ m.deletedServers, (∃ r ∈ m.requests, (m.request r).server = s) → m.Busy s))

instance (m : Master) (e : MasterEvent) : Decidable (Draining m e) := by
  unfold Draining
  split <;> infer_instance

theorem Draining.substantial {m : Master} {e : MasterEvent} (h : Draining m e) : Substantial m e := by
  cases e with
  | serverRoutine => trivial
  | _ => exact h

namespace Attached

variable {rt : Runtime} {m m' : Master} {s : Nat}

/-- The requests stay at their servers. -/
theorem frame (h : Attached m) (hreqs : m'.requests = m.requests)
    (hreq : ∀ r ∈ m.requests, (m'.request r).server = (m.request r).server) (hall : ∀ s, s ∈ m'.allServers ↔ s ∈ m.allServers)
    (hconn : ∀ s ∈ m.allServers, (m'.server s).connections = (m.server s).connections) : Attached m' := by
  refine ⟨fun r hr => ?_, fun s hs => ?_⟩
  · rw [hreqs] at hr
    rw [hreq r hr, hall]
    exact h.server r hr
  · have hs := (hall s).mp hs
    rw [hconn s hs, h.connections s hs, hreqs]
    congr 1
    exact List.countP_congr fun r hr => by rw [hreq r hr]

theorem framed (h : Attached m) (hf : Framed m m') : Attached m' := by
  refine h.frame hf.requests (fun r _ => by rw [hf.request]) (fun s => by rw [hf.allServers]) fun s _ => ?_
  obtain ⟨_, _, _, _, hs⟩ := hf.server s
  rw [hs]

theorem setRequest {r : Nat} {q : Req} (h : Attached m) (hq : q.server = (m.request r).server) :
    Attached (m.setRequest r q) := by
  refine h.frame rfl (fun x _ => ?_) (fun _ => Iff.rfl) fun _ _ => rfl
  by_cases hx : x = r
  · rw [hx]
    show (Function.update m.request r q r).server = _
    rw [Function.update_self, hq]
  · show (Function.update m.request r q x).server = _
    rw [Function.update_of_ne hx]

theorem accept {r : Nat} {old : Request} {buffer total : List UInt8} (h : Attached m) (hs : s ∈ m.allServers)
    (hr : r ∉ m.requests) : Attached (m.accept s r old buffer total) := by
  have hself : ((m.accept s r old buffer total).request r).server = s := by
    show (Function.update m.request r _ r).server = _
    rw [Function.update_self]
  have hother : ∀ x ∈ m.requests, ((m.accept s r old buffer total).request x).server = (m.request x).server := by
    intro x hx
    show (Function.update m.request r _ x).server = _
    rw [Function.update_of_ne fun he : x = r => hr (he ▸ hx)]
  refine ⟨fun x hx => ?_, fun y hy => ?_⟩
  · rcases List.mem_cons.mp hx with rfl | hx
    · rw [hself]
      exact hs
    · rw [hother x hx]
      exact h.server x hx
  · have hcount : m.requests.countP (fun x => ((m.accept s r old buffer total).request x).server = y) =
        m.requests.countP fun x => (m.request x).server = y :=
      List.countP_congr fun x hx => by rw [hother x hx]
    show (Function.update m.server s _ y).connections = ((r :: m.requests).countP _ : Nat)
    rw [List.countP_cons, hcount, hself]
    by_cases hys : y = s
    · subst hys
      rw [Function.update_self]
      simp only [h.connections y hy, decide_true, if_true]
      rfl
    · rw [Function.update_of_ne hys, h.connections y hy]
      simp [Ne.symm hys]

/-- The end of a connection. -/
theorem close {r : Nat} {y : Server} (h : Attached m) (hr : r ∈ m.requests) (hs : (m.request r).server = s)
    (hy : y.connections = (m.server s).connections - 1) :
    Attached { m.setServer s y with requests := m.requests.erase r } := by
  refine ⟨fun x hx => h.server x (List.mem_of_mem_erase hx), fun x hx => ?_⟩
  have hconn := h.connections x hx
  show (Function.update m.server s y x).connections = ((m.requests.erase r).countP fun z => (m.request z).server = x : Nat)
  rw [List.countP_erase]
  by_cases hxs : x = s
  · subst hxs
    have hpos : 0 < m.requests.countP fun z => (m.request z).server = x :=
      List.countP_pos_iff.mpr ⟨r, hr, decide_eq_true hs⟩
    rw [Function.update_self, hy, hconn, if_pos ⟨hr, decide_eq_true hs⟩]
    omega
  · rw [Function.update_of_ne hxs, hconn, if_neg fun hc => hxs (hs ▸ (of_decide_eq_true hc.2).symm)]
    rfl

/-! ## Servers -/

theorem update_connections {y : Server} (hm : m'.server = Function.update m.server s y)
    (hy : y.connections = (m.server s).connections) (x : Nat) : (m'.server x).connections = (m.server x).connections := by
  by_cases hx : x = s
  · rw [hm, hx, Function.update_self, hy]
  · rw [hm, Function.update_of_ne hx]

theorem serverDelete (h : Attached m) (hs : s ∈ m.servers) : Attached (m.serverDelete s) :=
  h.frame rfl (fun _ _ => rfl) (fun _ => mem_serverDelete hs) fun x _ => update_connections rfl (by rfl) x

theorem serverUpdate {conf : ServerConf} (h : Attached m) (hs : s ∈ m.servers) : Attached (m.serverUpdate s conf) :=
  h.frame rfl (fun _ _ => rfl) (fun _ => mem_serverUpdate hs) fun x _ => update_connections rfl (by rfl) x

theorem serverCreate {conf : ServerConf} (h : Attached m) (ht : TableInv m) (hc : m.serverCreate conf = some m') :
    Attached m' := by
  have hmem := fun x (hx : x ∈ m'.allServers) => TableInv.mem_create hc hx
  unfold Master.serverCreate at hc
  obtain ⟨⟨i, t⟩, -, hc⟩ := Option.bind_eq_some_iff.mp hc
  obtain ⟨hash, -, hc⟩ := Option.bind_eq_some_iff.mp hc
  cases hc
  refine ⟨fun r hr => ?_, fun x hx => ?_⟩
  · have hs := h.server r hr
    simp only [allServers, List.mem_append, List.mem_singleton] at hs ⊢
    tauto
  · show (Function.update m.server m.serverTotal _ x).connections = (m.requests.countP fun r => (m.request r).server = x : Nat)
    rcases hmem x hx with rfl | hx
    · -- No request is at it.
      have hzero : m.requests.countP (fun r => (m.request r).server = m.serverTotal) = 0 :=
        List.countP_eq_zero.mpr fun r hr he => (ht.total _ (h.server r hr)).ne (of_decide_eq_true he)
      rw [Function.update_self, hzero]
      rfl
    · rw [Function.update_of_ne (ht.total x hx).ne]
      exact h.connections x hx

theorem serverConfLoad {plan : List ServerPlan} (h : Attached m) (ha : Audited m) (hplan : ServerPlanOk m plan)
    (hl : m.serverConfLoad plan = some m') : Attached m' :=
  (serverConfLoad_rule (P := fun m => Audited m ∧ Attached m) (fun _ hP => (List.nodup_append.mp hP.1.recent.table.nodup).1)
    (fun hP hs => ⟨hP.1.serverDelete hs, hP.2.serverDelete hs⟩) (fun hP hs => ⟨hP.1.serverUpdate hs, hP.2.serverUpdate hs⟩)
    (fun hP hc => ⟨hP.1.serverCreate hc, hP.2.serverCreate hP.1.recent.table hc⟩) hplan ⟨ha, h⟩ hl).2

end Attached

/-! ## What `server_routine` does -/

/-- With what the servers rely on. -/
structure Alive (m : Master) : Prop where
  audited : Audited m
  attached : Attached m
  held : Held m

theorem Busy.evicted {s : Nat} {m m' : Master} (h : m.Busy s) (he : Evicted m m') : m'.Busy s := by
  obtain ⟨a, ha, huse⟩ := h
  obtain ⟨hitem, hhome⟩ := mem_itemsOf.mp ha
  obtain ⟨_, hsame, -⟩ := he.item a
  refine ⟨a, mem_itemsOf.mpr ⟨he.inUse a hitem huse, ?_⟩, by rw [hsame]; exact huse⟩
  rw [home, he.number, he.log]
  exact hhome

theorem Held.evicted {m m' : Master} (h : Held m) (he : Evicted m m') : Held m' := by
  intro s hs hr
  rw [he.deletedServers] at hs
  rw [he.requests, he.request] at hr
  exact (h s hs hr).evicted he

theorem Alive.evictions (rt : Runtime) : Evictions rt (fun _ => True) Alive where
  listed _ _ _ := trivial
  itemDelete h _ hd :=
    have he := Evicted.serverItemDelete hd
    ⟨h.audited.itemDelete hd, h.attached.framed (.evicted he), h.held.evicted he⟩
  passbys h := ⟨h.audited.expirePassbys, h.attached.framed (.evicted .expirePassbys), h.held.evicted .expirePassbys⟩

/-- A server without items has no requests. -/
theorem Alive.frees : Evictions.Frees Alive where
  nodup h := Audited.frees.nodup h.audited
  free {m s t} h hs ht hi hp := by
    have hnone : ∀ r ∈ m.requests, (m.request r).server ≠ s := by
      intro r hr hrs
      obtain ⟨a, ha, -⟩ := h.held s hs ⟨r, hr, hrs⟩
      have hnr := (h.audited.booked.ledger s (List.mem_append_right _ hs)).itemNr
      have hpos := List.length_pos_of_mem ha
      omega
    refine ⟨Audited.frees.free h.audited hs ht hi hp, ⟨fun r hr => ?_, fun x hx => ?_⟩, fun x hx => ?_⟩
    · rcases List.mem_append.mp (h.attached.server r hr) with hx | hx
      · exact List.mem_append_left _ hx
      · exact List.mem_append_right _ ((List.mem_erase_of_ne (hnone r hr)).mpr hx)
    · exact h.attached.connections x ((List.Sublist.append_left List.erase_sublist _).subset hx)
    · exact h.held x (List.mem_of_mem_erase hx)

/-! ## Every run -/

/-- **One step** of the master. -/
theorem masterStep_attached {rt : Runtime} {m m' : Master} {e : MasterEvent} (ha : Audited m) (hm : Attached m)
    (hok : Draining m e) (h : masterStep rt m e = some m') : Attached m' := by
  cases e with
  | tick now =>
    obtain ⟨-, h⟩ := Option.ite_none_right_eq_some.mp h
    cases h
    exact hm.frame rfl (fun _ _ => rfl) (fun _ => Iff.rfl) fun _ _ => rfl
  | accept s r old buffer total =>
    obtain ⟨⟨hs, hr, -⟩, h⟩ := Option.ite_none_right_eq_some.mp h
    cases h
    exact hm.accept (List.mem_append_left _ hs) hr
  | conn r e =>
    obtain ⟨-, h⟩ := Option.ite_none_right_eq_some.mp h
    obtain ⟨c, -, rfl⟩ := Option.map_eq_some_iff.mp h
    exact hm.setRequest rfl
  | handle r dispatch send =>
    obtain ⟨-, h⟩ := Option.ite_none_right_eq_some.mp h
    rcases handle_cases h with ⟨o, x, m₁, c, -, hc, -, rfl⟩ | ⟨o, rc, c, -, -, -, rfl⟩
    · have hf := Framed.callCase hc
      exact (hm.framed hf).setRequest (by rw [hf.request])
    · exact hm.setRequest rfl
  | finish r =>
    obtain ⟨⟨hr, -⟩, h⟩ := Option.ite_none_right_eq_some.mp h
    obtain ⟨m₁, hf, hcase⟩ := requestDoFinalize_cases h
    have hframe := Framed.finalized hf
    have h₁ := hm.framed hframe
    rcases hcase with ⟨-, rfl⟩ | ⟨-, rfl⟩
    · exact h₁.close (by rw [hframe.requests]; exact hr) (by rw [hframe.request]) rfl
    · exact h₁.setRequest (by rw [hframe.request])
  | clear port =>
    obtain ⟨s, -, rfl⟩ := Option.map_eq_some_iff.mp h
    exact hm.frame rfl (fun _ _ => rfl) (fun _ => Iff.rfl) fun x _ => Attached.update_connections rfl (by rfl) x
  | reload env conf =>
    unfold masterStep at h
    simp only at h
    split at h
    · next devices servers _ hplan =>
      unfold confLoad at h
      obtain ⟨sp, hsp, h⟩ := Option.bind_eq_some_iff.mp h
      have hplan := (serverConfCheck_ok hplan).1
      have hsame : Attached { m with space := sp } := hm.frame rfl (fun _ _ => rfl) (fun _ => Iff.rfl) fun _ _ => rfl
      exact hsame.serverConfLoad (ha.space (.deviceConfLoad hsp)) ⟨hplan.ports, hplan.existing, hplan.count⟩ h
    · cases h
  | load d io image =>
    obtain ⟨-, h⟩ := Option.ite_none_right_eq_some.mp h
    obtain ⟨⟨ok, image', m₁⟩, h₁, rfl⟩ := Option.map_eq_some_iff.mp h
    exact formatLoadDevice_rule (P := Attached) (fun h _ hx => h.framed (.loadCase (serverLoadFmItem_cases hx)))
      (fun h _ => h.frame rfl (fun _ _ => rfl) (fun _ => Iff.rfl) fun _ _ => rfl) hm h₁
  | serverRoutine => exact ((Alive.evictions rt).serverRoutine Alive.frees ⟨ha, hm, hok⟩ h).attached
  | deviceRoutine => exact hm.framed (.evicted ((Evicted.steps rt _).deviceRoutine (.refl _) h))

/-- **The lifetime of servers.** The server of every request is there, and its
connections are the requests, in every run in which `server_routine` finds
the deleted servers that have requests busy. -/
theorem server_lifetime {rt : Runtime} {m : Master} (h : (masterSystem rt).Reach Draining m) : Attached m := by
  refine h.invariant (fun m hm => ?_) fun m e m' hr hm hok hn => ?_
  · obtain ⟨now, rfl⟩ := hm
    exact ⟨nofun, nofun⟩
  · exact masterStep_attached (audited_run (hr.mono fun _ _ => Draining.substantial)) hm hok hn.1

/-- The configuration with another server in the place of the one at port 80. -/
def Conf.moved : Conf := { Conf.onDevices ["a"] with servers := [ServerConf.default 81] }

/-- The server is deleted while `/a` is written, and lives on. -/
theorem server_lifetime_put : ∃ m, (masterSystem .plain).Reach Draining m ∧ m.servers = [1] ∧ m.deletedServers = [0] ∧
    m.requests = [7] ∧ (m.request 7).server = 0 ∧ Attached m := by
  have hrun : (System.run (System.guarded Draining (masterStep .plain)) (Process.boot 0).master
      ((storingOn 0 "a").take 4 ++ [.reload LoadEnv.twoFiles Conf.moved, .serverRoutine])).map
      (fun m => [m.servers, m.deletedServers, m.requests, [(m.request 7).server]]) = some [[1], [0], [7], [0]] := by
    decide +kernel
  obtain ⟨m, hm, hview⟩ := Option.map_eq_some_iff.mp hrun
  simp only [List.cons.injEq, and_true] at hview
  have hr : (masterSystem .plain).Reach Draining m := masterSystem_guarded rfl (.init ⟨0, rfl⟩) hm
  exact ⟨m, hr, hview.1, hview.2.1, hview.2.2.1, hview.2.2.2, server_lifetime hr⟩

/-- A connection has sent nothing yet when a reload removes its server. The
server has no items, and is freed. -/
theorem server_lifetime_idle : ∃ m, (masterSystem .plain).Reachable m ∧ m.requests = [7] ∧ (m.request 7).server = 0 ∧
    m.servers = [1] ∧ m.deletedServers = [] ∧ ¬Attached m := by
  have hrun : (System.run (masterStep .plain) (Process.boot 0).master
      ((storingOn 0 "a").take 2 ++ [.reload LoadEnv.twoFiles Conf.moved, .serverRoutine])).map
      (fun m => [m.servers, m.deletedServers, m.requests, [(m.request 7).server]]) = some [[1], [], [7], [0]] := by
    decide +kernel
  obtain ⟨m, hm, hview⟩ := Option.map_eq_some_iff.mp hrun
  simp only [List.cons.injEq, and_true] at hview
  obtain ⟨hservers, hdeleted, hreqs, hserver⟩ := hview
  refine ⟨m, masterSystem_run rfl (.init ⟨0, rfl⟩) hm, hreqs, hserver, hservers, hdeleted, fun hm => ?_⟩
  have hmem := hm.server 7 (by rw [hreqs]; exact List.mem_singleton_self 7)
  rw [hserver, allServers, hservers, hdeleted] at hmem
  exact absurd hmem (by decide)

end Master

end OliveHc
