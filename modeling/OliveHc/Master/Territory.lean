/-
Whose bytes the requests touch.

Each open request of the master is a connection as `request.c` runs it,
whatever the other requests, the reloads and the routines do meanwhile: what
holds of a connection by itself holds of all of them. A store writes from the
offset of its item on, through the descriptor of the item's device; that this
is nobody else's place rests on the layout of the device and on the one open
device that a file has.
-/
import OliveHc.Format.AnyImage
import OliveHc.Master.Moorings
import OliveHc.Wire

namespace OliveHc

/-! ## The item of a connection -/

namespace Conn

variable {c c' : Conn} {o : Outcome} {send : Bool}

theorem requestFinalize_item (h : c.requestFinalize send = some c') : c'.item = c.item := (requestFinalize_cases h).2.1.1

theorem dispatch_item {phase : Phase} (h : c.dispatch o phase = some c') : c'.item = c.item := by
  unfold dispatch at h
  split at h
  · cases h
    rfl
  · exact (requestFinalize_item h).trans rfl

theorem writeDisk_item (write : Bool) (n : Nat) (c : Conn) : (c.writeDisk write n).1.item = c.item := by
  unfold writeDisk
  split <;> rfl

theorem bodyLoop_item (h : c.bodyLoop send = some c') : c'.item = c.item := by
  unfold bodyLoop at h
  split at h
  · cases h
    rfl
  · exact requestFinalize_item h

theorem sendFile_item (res : Sendfile) (n : Int) (c : Conn) : (c.sendFile res n).1.item = c.item := by
  cases res <;> rfl

/-- Only a handler gives the connection an item, and only its end takes it. -/
theorem connStep_item {e : ConnEvent} (hh : ∀ o, e ≠ .handle o) (hf : ∀ k, e ≠ .finish k) (h : connStep c e = some c') :
    c'.item = c.item := by
  cases e with
  | handle o => exact absurd rfl (hh o)
  | finish k => exact absurd rfl (hf k)
  | _ =>
    -- Every other call sets something else, and may end in `request_finalize`.
    simp only [connStep, preread, recvBody, header206, writeResponse] at h
    (repeat' split at h) <;> first
      | cases h <;> first | rfl | exact sendFile_item ..
      | exact (requestFinalize_item h).trans (by first | rfl | exact writeDisk_item .. | exact sendFile_item ..)
      | exact (bodyLoop_item h).trans (writeDisk_item ..)

/-- A head that is not complete, or not accepted. -/
theorem handle_item {rc : ParseRc} (hrc : rc ≠ .done) (h : c.handle o rc = some c') : c'.item = c.item := by
  cases rc with
  | again =>
    unfold handle at h
    simp only at h
    split at h
    · exact (requestFinalize_item h).trans rfl
    · cases h
      rfl
  | error => exact requestFinalize_item h
  | done => exact absurd rfl hrc

end Conn

namespace Master

variable {rt : Runtime} {m m' : Master}

/-- The item that a handler gives is the one that the request holds. -/
theorem callHandler_item {s : Nat} {dispatch send : Bool} {c c' : Conn} {o : Outcome} {x : Option Nat}
    (h : m.callHandler rt s dispatch send c = some (o, x, m')) (hnone : c.item = none) (hc : c.handle o .done = some c') :
    c'.item = x.map m'.itemView := by
  unfold callHandler at h
  unfold Conn.handle at hc
  cases hm : c.r.method with
  | invalid =>
    rw [hm] at h
    cases h
  | _ =>
    simp only [hm] at h hc
    obtain ⟨⟨a, m₁⟩, -, h⟩ := Option.bind_eq_some_iff.mp h
    simp only [Conn.handleGet, Conn.handlePut, Conn.handleDelete] at hc
    -- With an item the request is dispatched; without one it may be, or it ends.
    cases a <;> cases h <;> (try simp only [Option.map_none, Option.map_some] at hc) <;> (repeat' split at hc) <;> first
      | exact Conn.dispatch_item hc
      | exact (Conn.requestFinalize_item hc).trans hnone
      | exact (Conn.dispatch_item hc).trans hnone

/-! ## The connections of a run -/

/-- Every open request is a connection that `request.c` can have come to, by
events that meet `ok`. -/
def Connected (ok : Conn → ConnEvent → Prop) (m : Master) : Prop := ∀ r ∈ m.requests, connSystem.Reach ok (m.connOf r)

/-- Whatever the handlers and the end of a request bring, its other events
meet `ok`. -/
def Met (ok : Conn → ConnEvent → Prop) (m : Master) (e : MasterEvent) : Prop := ∀ r ev, e = .conn r ev → ok (m.connOf r) ev

theorem connOf_setRequest {r : Nat} {q : Req} (h : q.conn.item = q.item.map m.itemView) : (m.setRequest r q).connOf r = q.conn := by
  simp only [connOf, setRequest, Function.update_self]
  exact congrArg (fun y => { q.conn with item := y }) h.symm

/-- A request keeps its connection while the step is about something else:
what is read of its item stays. -/
theorem connOf_others {r : Nat} (hreq : m'.request r = m.request r)
    (hold : ∀ a, (m'.request r).item = some a → Holding m m' r a) : m'.connOf r = m.connOf r := by
  rw [connOf, connOf, hreq]
  cases hitem : (m.request r).item with
  | none => rfl
  | some a =>
    cases hold a (hreq ▸ hitem) with
    | kept _ _ _ hsame =>
      obtain ⟨_, _, _, _, heq⟩ := hsame
      rw [Option.map_some, Option.map_some, itemView, itemView, heq]
    | got _ hnone => cases hitem.symm.trans hnone

/-- **One step** of the master is a step of at most one connection. -/
theorem masterStep_connected {ok : Conn → ConnEvent → Prop} (hhandle : ∀ c o, ok c (.handle o))
    (hfinish : ∀ c k, ok c (.finish k)) {e : MasterEvent} (hrec : Recent m) (hmoor : Mooring m)
    (hstep : Voyage (subject e) m m') (hmet : Met ok m e) (hm : Connected ok m) (h : masterStep rt m e = some m') :
    Connected ok m' := by
  intro x hx
  by_cases hsub : subject e = some x
  · cases e with
    | accept s r old buffer total =>
      obtain ⟨⟨-, -, hlen, -⟩, h⟩ := Option.ite_none_right_eq_some.mp h
      cases h
      obtain rfl : r = x := Option.some.inj hsub
      refine .init ⟨(m.server s).conf.keepaliveTimeout, old, buffer, total, hlen, ?_⟩
      simp only [connOf, accept, Function.update_self]
      rfl
    | conn r e =>
      obtain ⟨⟨hr, hok⟩, h⟩ := Option.ite_none_right_eq_some.mp h
      obtain ⟨c, hc, rfl⟩ := Option.map_eq_some_iff.mp h
      obtain rfl : r = x := Option.some.inj hsub
      have hitem := Conn.connStep_item (fun o he => by rw [he] at hok; exact hok) (fun k he => by rw [he] at hok; exact hok) hc
      rw [connOf_setRequest hitem]
      exact .step (hm r hr) (hmet r e rfl) hc
    | handle r dispatch send =>
      obtain ⟨⟨hr, -⟩, h⟩ := Option.ite_none_right_eq_some.mp h
      obtain rfl : r = x := Option.some.inj hsub
      have hnone : (m.connOf r).item = none := congrArg (Option.map m.itemView) (hmoor.pinning.handled hr h)
      have hdone : ∀ {o rc c s a} {m₁ : Master}, (m.connOf r).phase = .parsed rc → (m.connOf r).handle o rc = some c →
          c.item = a.map m₁.itemView → connSystem.Reach ok ((m₁.setRequest r ⟨c, s, a⟩).connOf r) := by
        intro o rc c s a m₁ hphase hc hitem
        rw [connOf_setRequest hitem]
        have hnext : connStep (m.connOf r) (.handle o) = some c := by
          rw [connStep, hphase]
          exact hc
        exact .step (hm r hr) (hhandle ..) hnext
      unfold handle at h
      simp only at h
      split at h
      · next hphase =>
        obtain ⟨_, hcall, h⟩ := Option.bind_eq_some_iff.mp h
        obtain ⟨c, hc, h⟩ := Option.bind_eq_some_iff.mp h
        cases h
        exact hdone hphase hc (callHandler_item hcall hnone hc)
      · next rc hrc hphase =>
        obtain ⟨c, hc, h⟩ := Option.bind_eq_some_iff.mp h
        cases h
        exact hdone hphase hc ((Conn.handle_item hrc hc).trans hnone)
      · cases h
    | finish r =>
      obtain ⟨⟨hr, -, hphase⟩, h⟩ := Option.ite_none_right_eq_some.mp h
      obtain rfl : r = x := Option.some.inj hsub
      obtain ⟨m₁, hfin, hm'⟩ := requestDoFinalize_cases h
      rcases hm' with ⟨-, rfl⟩ | ⟨-, rfl⟩
      · exact absurd ((Framed.finalized hfin).requests ▸ hx) hmoor.pinning.nodup.not_mem_erase
      · rw [connOf_setRequest (by unfold Conn.requestDoFinalize; simp only; split <;> rfl)]
        have hnext : connStep (m.connOf r) (.finish (m₁.server (m.request r).server).conf.keepaliveTimeout) = some _ := if_pos hphase
        exact .step (hm r hr) (hfinish ..) hnext
    | _ => cases hsub
  · obtain ⟨hmem, hreq⟩ := hstep.others x hx hsub
    rw [connOf_others hreq fun a ha => hstep.kept hmoor hrec (masterStep_lives h) hx ha]
    exact hm x hmem

/-- **Each open request is a run of its connection**, in every run of the
master: what holds of a connection alone holds of all of them, however they
are interleaved. -/
theorem connections_run {ok : Conn → ConnEvent → Prop} (hhandle : ∀ c o, ok c (.handle o)) (hfinish : ∀ c k, ok c (.finish k))
    (h : (masterSystem rt).Reach (fun m e => Modest m e ∧ Met ok m e) m) : ∀ r ∈ m.requests, connSystem.Reach ok (m.connOf r) := by
  refine System.Reach.invariant (I := Connected ok) (fun m hm => ?_) (fun m e m' hr hc hok hn => ?_) h
  · obtain ⟨now, rfl⟩ := hm
    exact List.forall_mem_nil _
  · have hmoor := mooring_run (hr.mono fun _ _ => And.left)
    have hrec := recent_run hr.reachable
    have hstep := masterStep_voyage hrec hmoor hok.1.1 (hmoor.pinning.countable hok.1.2 hn.1) hn.1
    exact masterStep_connected hhandle hfinish hrec hmoor hstep hok.2 hc hn.1

/-- A reader of a device that has been taken out. -/
theorem connections_moved : ∃ m, (masterSystem .plain).Reach Modest m ∧ m.requests = [8, 7] ∧ (m.connOf 8).phase = .response ∧
    connSystem.Reachable (m.connOf 8) := by
  obtain ⟨m, -, hr, -, ⟨h1, -⟩, -, -, h2⟩ := readingMoved_run
  have hr := hr.mono fun _ _ => And.left
  exact ⟨m, hr, h1, h2, connections_run (fun _ _ => trivial) (fun _ _ => trivial)
    (hr.mono fun _ _ hok => ⟨hok, fun _ _ _ => trivial⟩) 8 (by rw [h1]; decide)⟩

/-! ## Loading -/

section Loads

variable {s d f : Nat} {x : FormatItem}

/-- A record with a length, at a multiple of 512. -/
theorem LoadCase.loading (h : Loading False d f m.space) (h1 : x.length ≠ 0) (hlen : x.length < 2 ^ 32)
    (hoff : 512 ∣ x.place) (hc : LoadCase rt s d x m m') : Loading False d f m'.space := by
  have hload : ∀ {a k sp}, rt.al.get m.calls m.space.items = some a →
      (m.loadDraft s d a x).space.deviceCutFreeBlock rt.al a = some (k, sp) →
      Loading False d f (if k = 0 then sp.itemFree a else sp) := by
    intro a k sp ha hk
    have hl : m.space.loadItem rt.al d (a, { m.space.item a with
        putting := false, badblock := false, deleted := false, used := 0, clear := 0, serverIndex := (m.server s).index,
        length := x.length, expire := x.expire, headersLen := x.headersLen, offset := x.place }) =
        some (if k = 0 then sp.itemFree a else sp) := by
      rw [Space.loadItem, if_neg (rt.al.fresh ha)]
      exact Option.map_eq_some_iff.mpr ⟨_, hk, rfl⟩
    exact loadItem_loading (fun hf => hf.elim) h ⟨Nat.pos_of_ne_zero h1, hlen, hoff⟩ hl
  cases hc with
  | noMem => exact h
  | noFit ha hk => exact hload ha hk
  | ok ha hk hne =>
    have hsp := hload ha hk
    rw [if_neg hne] at hsp
    exact hsp.setItem fun _ => ⟨rfl, rfl, rfl⟩

end Loads

end Master

end OliveHc
