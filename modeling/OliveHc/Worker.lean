/-
The master and the worker threads (`worker.c`): requests travel by pointer
through two pipes per worker, and none is lost, duplicated or left behind.

The threads are interleaved at the places where they touch what is shared.
A dispatch is two steps of the master, the write and the `request_nr++`
after it; reading a pipe takes up to 50 pointers into the local array
`reqs` of `worker_do_request_read`, and each is then linked and handled in
a step of its own. `request_nr` is the master's counter, behind by one
inside a dispatch and ahead inside a recycle, and a worker that has been
taken out of the ring quits on its own reading of it (`PoolInv.count`).
-/
import OliveHc.Lib.System
import OliveHc.Lib.Ownership

namespace OliveHc

/-- Where a request can be. `recycled` and `received w` are the local array
`reqs` of the master's and of the worker's `worker_do_request_read`. -/
inductive Place
  | master
  | recycled
  | dispatch (w : Nat)
  | received (w : Nat)
  | working (w : Nat)
  | blocked (w : Nat)
  | ret (w : Nat)
deriving DecidableEq

/-- The worker a place belongs to. -/
def Place.owner : Place → Option Nat
  | .master | .recycled => none
  | .dispatch w | .received w | .working w | .blocked w | .ret w => some w

/-- What the master is inside of: nothing, `worker_request_dispatch` after
its write, or `worker_request_recycle` with the count so far and whether
the last `read` filled the array. -/
inductive MasterPc
  | idle
  | counting (w : Nat)
  | recycling (w count : Nat) (full : Bool)
deriving DecidableEq

/-- The requests and the workers. `ring` is the list of `wnode`s from
`current_worker` on, `workers` the counter beside it, `live` the requests
that are open, `alive` the worker objects not yet destroyed. -/
structure Pool where
  held : Place → List Nat
  live : List Nat
  alive : List Nat
  ring : List Nat
  workers : Int
  requestNr : Nat → Int
  quitTime : Nat → Nat
  pc : MasterPc
  quitting : Bool

def bigTime : Nat := 3638880000

/-- The length of the array `reqs` in `worker_do_request_read`. -/
def reqsSize : Nat := 50

namespace Pool

def init : Pool where
  held := fun _ => []
  live := []
  alive := []
  ring := []
  workers := 0
  requestNr := fun _ => 0
  quitTime := fun _ => 0
  pc := .idle
  quitting := false

def put (s : Pool) (p : Place) (l : List Nat) : Pool := { s with held := Function.update s.held p l }

/-- `worker_create`: empty lists and pipes, linked behind `current_worker`. -/
def workerCreate (s : Pool) (w : Nat) : Pool :=
  { s with
    held := fun p => if p.owner = some w then [] else s.held p
    alive := w :: s.alive
    ring := match s.ring with
      | [] => [w]
      | c :: rest => c :: w :: rest
    workers := s.workers + 1
    requestNr := Function.update s.requestNr w 0
    quitTime := Function.update s.quitTime w 0 }

/-- `w` has left the ring and may quit. -/
def leaveRing (s : Pool) (w : Nat) (ring : List Nat) (quitTime : Nat) : Pool :=
  { s with
    ring
    workers := s.workers - 1
    quitTime := Function.update s.quitTime w (if quitTime ≠ 0 then quitTime else bigTime) }

/-- One round of `worker_delete`: `current_worker->next` leaves the ring.
With no worker left there is no `current_worker` to follow. -/
def workerDelete1 (s : Pool) (quitTime : Nat) : Option Pool :=
  match s.ring with
  | [] => none
  | [c] => some (s.leaveRing c [] quitTime)
  | c :: n :: rest => some (s.leaveRing n (c :: rest) quitTime)

def workerDelete : Nat → Nat → Pool → Option Pool
  | 0, _, s => some s
  | num + 1, quitTime, s => (s.workerDelete1 quitTime).bind (workerDelete num quitTime)

/-- `worker_conf_check` and `worker_conf_load` of a reload that succeeds:
`news` are the workers it has to create. -/
def reload (s : Pool) (threads : Nat) (news : List Nat) : Option Pool :=
  if threads ≠ 0 ∧ news.length = (threads - s.workers).toNat ∧ news.Nodup ∧ ∀ w ∈ news, w ∉ s.alive then
    let s := news.foldl workerCreate s
    workerDelete (s.workers - threads).toNat 0 s
  else none

/-- `worker_do_request_write` towards the master: unlink, write, and on a
full pipe link on `blocked_requests`. -/
def workerRequestReturn (cap : Nat) (s : Pool) (w : Nat) (p : Place) (r : Nat) : Pool :=
  let s := s.put p ((s.held p).erase r)
  if (s.held (.ret w)).length < cap then s.put (.ret w) (s.held (.ret w) ++ [r])
  else s.put (.blocked w) (r :: s.held (.blocked w))

/-- `worker_request_dispatch` up to its write; `cap` is a pipe's capacity. -/
def workerRequestDispatch (cap : Nat) (s : Pool) (r : Nat) : Option Pool :=
  if s.workers = 0 then some s
  else match s.ring with
    | [] => none
    | target :: rest =>
      let s := { s with ring := rest ++ [target] }
      let s := s.put .master ((s.held .master).erase r)
      if (s.held (.dispatch target)).length < cap then
        some { s.put (.dispatch target) (s.held (.dispatch target) ++ [r]) with pc := .counting target }
      else some (s.put .master (r :: s.held .master))

/-- One `read` of a pipe into `reqs`. -/
def readPipe (s : Pool) (pipe reqs : Place) : Pool :=
  let l := s.held pipe
  (s.put pipe (l.drop reqsSize)).put reqs (l.take reqsSize)

/-- The last part of `request_do_finalize` when the connection is not kept. -/
def close (s : Pool) (r : Nat) : Pool :=
  { s.put .master ((s.held .master).erase r) with live := s.live.filter (· ≠ r) }

end Pool

/-- The steps of the master and of the workers. -/
inductive PoolStep
  | accept (r : Nat)
  | close (r : Nat)
  | dispatch (r : Nat)
  | counted
  | recycle (w : Nat)
  | recycleOne (keepalive : Bool)
  | recycleEnd
  | receive (w : Nat)
  | handle (w : Nat) (finished : Bool)
  | finish (w r : Nat)
  | retry (w r : Nat)
  | reload (threads : Nat) (news : List Nat)
  | quit (quitTime : Nat)
  | destroy (w : Nat)

open Pool in
def poolStep (cap : Nat) (s : Pool) : PoolStep → Option Pool
  | .accept r =>
    if s.pc = .idle ∧ r ∉ s.live then some { s.put .master (r :: s.held .master) with live := r :: s.live } else none
  | .close r => if s.pc = .idle ∧ r ∈ s.held .master then some (s.close r) else none
  | .dispatch r => if s.pc = .idle ∧ r ∈ s.held .master then s.workerRequestDispatch cap r else none
  | .counted => match s.pc with
    | .counting w => some { s with requestNr := Function.update s.requestNr w (s.requestNr w + 1), pc := .idle }
    | _ => none
  | .recycle w =>
    if s.held (.ret w) = [] then none
    else match s.pc with
      | .idle => some { s.readPipe (.ret w) .recycled with
          pc := .recycling w 0 (decide (reqsSize ≤ (s.held (.ret w)).length)) }
      | .recycling v count true =>
        if v = w ∧ s.held .recycled = [] then
          some { s.readPipe (.ret w) .recycled with
            pc := .recycling w count (decide (reqsSize ≤ (s.held (.ret w)).length)) }
        else none
      | _ => none
  | .recycleOne keepalive => match s.pc, s.held .recycled with
    | .recycling w count full, r :: rest =>
      let s := { (s.put .recycled rest).put .master (r :: s.held .master) with pc := .recycling w (count + 1) full }
      some (if keepalive then s else s.close r)
    | _, _ => none
  | .recycleEnd => match s.pc, s.held .recycled with
    | .recycling w count full, [] =>
      if full = false ∨ s.held (.ret w) = [] then
        some { s with requestNr := Function.update s.requestNr w (s.requestNr w - count), pc := .idle }
      else none
    | _, _ => none
  | .receive w =>
    if s.held (.received w) = [] then some (s.readPipe (.dispatch w) (.received w)) else none
  | .handle w finished => match s.held (.received w) with
    | r :: rest =>
      let s := (s.put (.received w) rest).put (.working w) (r :: s.held (.working w))
      some (if finished then s.workerRequestReturn cap w (.working w) r else s)
    | [] => none
  | .finish w r => if r ∈ s.held (.working w) then some (s.workerRequestReturn cap w (.working w) r) else none
  | .retry w r => if r ∈ s.held (.blocked w) then some (s.workerRequestReturn cap w (.blocked w) r) else none
  | .reload threads news => if s.pc = .idle ∧ s.quitting = false then s.reload threads news else none
  | .quit quitTime =>
    if s.pc = .idle ∧ s.quitting = false then
      (workerDelete s.workers.toNat quitTime s).map fun s => { s with quitting := true }
    else none
  | .destroy w =>
    if w ∈ s.alive ∧ s.held (.received w) = [] ∧ s.quitTime w ≠ 0 ∧ s.requestNr w = 0 then
      some { s with alive := s.alive.filter (· ≠ w) }
    else none

/-- Master and workers over pipes of `cap` pointers, from no worker on. -/
def poolSystem (cap : Nat) : System Pool PoolStep where
  init s := s = .init
  next s a s' := poolStep cap s a = some s'

/-! ## The invariant -/

namespace Pool

/-- The requests in the two pipes, the two lists and the array of a worker. -/
def load (s : Pool) (w : Nat) : Nat :=
  (s.held (.dispatch w)).length + (s.held (.received w)).length + (s.held (.working w)).length +
    (s.held (.blocked w)).length + (s.held (.ret w)).length

/-- How far `request_nr` is off inside a step of the master. -/
def owed (s : Pool) (w : Nat) : Int :=
  match s.pc with
  | .idle => 0
  | .counting v => if v = w then -1 else 0
  | .recycling v count _ => if v = w then (s.held .recycled).length + count else 0

end Pool

structure PoolInv (s : Pool) : Prop where
  owned : Owned s.held s.live
  ringNodup : s.ring.Nodup
  ring : ∀ w ∈ s.ring, w ∈ s.alive ∧ s.quitTime w = 0
  workers : s.workers = s.ring.length
  dead : ∀ w, w ∉ s.alive → ∀ p, p.owner = some w → s.held p = []
  counting : ∀ w, s.pc = .counting w → w ∈ s.ring
  recycling : ∀ w count full, s.pc = .recycling w count full →
    w ∈ s.alive ∧ 1 ≤ (s.held .recycled).length + count
  idle : (∀ w count full, s.pc ≠ .recycling w count full) → s.held .recycled = []
  count : ∀ w ∈ s.alive, s.requestNr w = s.load w + s.owed w

/-! ## What the updates do to the counts -/

theorem Pool.load_put {s : Pool} {p : Place} {l : List Nat} {w : Nat} (h : p.owner ≠ some w) :
    (s.put p l).load w = s.load w := by
  cases p <;> simp only [Place.owner, ne_eq, Option.some.injEq] at h <;>
    simp [Pool.load, Pool.put, Function.update, Ne.symm h]

theorem Pool.held_put_of_ne {s : Pool} {p q : Place} {l : List Nat} (h : q ≠ p) : (s.put p l).held q = s.held q :=
  Function.update_of_ne h _ _

@[simp] theorem Pool.held_put_self {s : Pool} {p : Place} {l : List Nat} : (s.put p l).held p = l :=
  Function.update_self _ _ _

theorem Pool.put_put {s : Pool} {p : Place} {l l' : List Nat} : (s.put p l).put p l' = s.put p l' := by
  simp [Pool.put]

/-- A place of a worker grows and shrinks the worker's load with its list. -/
theorem Pool.load_put_self {s : Pool} {p : Place} {l : List Nat} {w : Nat} (h : p.owner = some w) :
    (s.put p l).load w + (s.held p).length = s.load w + l.length := by
  cases p <;> simp only [Place.owner, Option.some.injEq, reduceCtorEq] at h <;> subst h <;>
    simp [Pool.load, Pool.put, Function.update] <;> omega

theorem perm_erase {l : List Nat} {r : Nat} (h : r ∈ l) : l.Perm ([r] ++ l.erase r) := List.perm_cons_erase h

/-! ## Steps of a worker -/

/-- Requests handed on between two places of one worker. -/
theorem PoolInv.move {s : Pool} (h : PoolInv s) {p q : Place} {w : Nat} (hpw : p.owner = some w)
    (hqw : q.owner = some w) (hpq : p ≠ q) {m lp lq : List Nat} (hp : (s.held p).Perm (m ++ lp))
    (hq : lq.Perm (m ++ s.held q)) : PoolInv ((s.put p lp).put q lq) := by
  have hrec : ((s.put p lp).put q lq).held .recycled = s.held .recycled := by
    rw [Pool.held_put_of_ne, Pool.held_put_of_ne] <;> rintro rfl <;> simp [Place.owner] at hpw hqw
  have hload : ∀ v, ((s.put p lp).put q lq).load v = s.load v := by
    intro v
    by_cases hv : v = w
    · subst hv
      have h1 := Pool.load_put_self (s := s.put p lp) (l := lq) hqw
      have h2 := Pool.load_put_self (s := s) (l := lp) hpw
      rw [Pool.held_put_of_ne hpq.symm] at h1
      have h3 := hp.length_eq
      have h4 := hq.length_eq
      simp only [List.length_append] at h3 h4
      omega
    · rw [Pool.load_put (by rw [hqw]; simpa using Ne.symm hv), Pool.load_put (by rw [hpw]; simpa using Ne.symm hv)]
  have howed : ∀ v, ((s.put p lp).put q lq).owed v = s.owed v := by
    intro v
    simp only [Pool.owed, hrec]
    rfl
  refine ⟨h.owned.transfer hpq hp hq, h.ringNodup, h.ring, h.workers, fun v hv a ha => ?_, h.counting,
    fun v c f hpc => ?_, fun hpc => ?_, fun v hv => ?_⟩
  · have hno : ∀ b : Place, b.owner = some v → s.held b = [] := h.dead v hv
    by_cases haw : v = w
    · subst haw
      have hx := hno p hpw
      rw [hx] at hp
      obtain ⟨rfl, rfl⟩ := List.append_eq_nil_iff.mp hp.nil_eq.symm
      rw [hno q hqw] at hq
      have := hq.eq_nil
      subst this
      by_cases haq : a = q
      · subst haq; simp
      · rw [Pool.held_put_of_ne haq]
        by_cases hap : a = p
        · subst hap; simp
        · rw [Pool.held_put_of_ne hap]; exact hno a ha
    · have haq : a ≠ q := by rintro rfl; rw [hqw] at ha; exact haw (Option.some.inj ha).symm
      have hap : a ≠ p := by rintro rfl; rw [hpw] at ha; exact haw (Option.some.inj ha).symm
      rw [Pool.held_put_of_ne haq, Pool.held_put_of_ne hap]
      exact hno a ha
  · rw [hrec]; exact h.recycling v c f hpc
  · rw [hrec]; exact h.idle hpc
  · rw [hload, howed]; exact h.count v hv

/-- A new order at a place. -/
theorem PoolInv.reorder {s : Pool} (h : PoolInv s) {p : Place} (hp : p ≠ .recycled) {l : List Nat}
    (hl : l.Perm (s.held p)) : PoolInv (s.put p l) := by
  have hrec : (s.put p l).held .recycled = s.held .recycled := Pool.held_put_of_ne hp.symm
  refine ⟨h.owned.reorder hl, h.ringNodup, h.ring, h.workers, fun v hv a ha => ?_, h.counting, fun v c f hpc => ?_,
    fun hpc => ?_, fun v hv => ?_⟩
  · by_cases hap : a = p
    · subst hap
      rw [h.dead v hv a ha] at hl
      simpa using hl.eq_nil
    · rw [Pool.held_put_of_ne hap]; exact h.dead v hv a ha
  · rw [hrec]; exact h.recycling v c f hpc
  · rw [hrec]; exact h.idle hpc
  · have hload : (s.put p l).load v = s.load v := by
      by_cases hv : p.owner = some v
      · have := Pool.load_put_self (s := s) (l := l) hv
        have := hl.length_eq
        omega
      · exact Pool.load_put hv
    have howed : (s.put p l).owed v = s.owed v := by
      simp only [Pool.owed, hrec]
      rfl
    rw [hload, howed]; exact h.count v hv

/-- Whether the return pipe is full or not, a finished request stays with
the worker until the master reads it. -/
theorem PoolInv.workerRequestReturn {s : Pool} (h : PoolInv s) (cap : Nat) {w r : Nat} {p : Place}
    (hp : p = .working w ∨ p = .blocked w) (hr : r ∈ s.held p) : PoolInv (s.workerRequestReturn cap w p r) := by
  have hpw : p.owner = some w := by rcases hp with rfl | rfl <;> rfl
  have hret : p ≠ .ret w := by rcases hp with rfl | rfl <;> simp
  unfold Pool.workerRequestReturn
  simp only
  split
  · refine h.move hpw rfl hret (m := [r]) (perm_erase hr) ?_
    rw [Pool.held_put_of_ne hret.symm]
    exact List.perm_append_comm
  · rcases hp with rfl | rfl
    · refine h.move hpw rfl (by simp) (m := [r]) (perm_erase hr) ?_
      rw [Pool.held_put_of_ne (by simp)]
      rfl
    · rw [Pool.held_put_self, Pool.put_put]
      exact h.reorder (by simp) (List.perm_cons_erase hr).symm

/-! ## Steps of the master -/

theorem Pool.load_congr {s s' : Pool} {w : Nat} (h : ∀ p : Place, p.owner = some w → s'.held p = s.held p) :
    s'.load w = s.load w := by
  simp only [Pool.load, h (.dispatch w) rfl, h (.received w) rfl, h (.working w) rfl, h (.blocked w) rfl,
    h (.ret w) rfl]

theorem PoolInv.close {s : Pool} (h : PoolInv s) {r : Nat} (hr : r ∈ s.held .master) : PoolInv (s.close r) := by
  have hheld : ∀ q : Place, q ≠ .master → (s.close r).held q = s.held q := fun q hq => Pool.held_put_of_ne hq
  have howner : ∀ (q : Place) v, q.owner = some v → q ≠ .master := by rintro q v hq rfl; simp [Place.owner] at hq
  have howed : ∀ v, (s.close r).owed v = s.owed v := by
    intro v
    have : (s.close r).held .recycled = s.held .recycled := hheld _ (by simp)
    simp only [Pool.owed, this]
    rfl
  refine ⟨h.owned.lose (perm_erase hr), h.ringNodup, h.ring, h.workers, fun v hv a ha => ?_, h.counting,
    fun v c f hpc => ?_, fun hpc => ?_, fun v hv => ?_⟩
  · rw [hheld a (howner a v ha)]; exact h.dead v hv a ha
  · rw [hheld _ (by simp)]; exact h.recycling v c f hpc
  · rw [hheld _ (by simp)]; exact h.idle hpc
  · rw [howed, Pool.load_congr fun q hq => hheld q (howner q v hq)]; exact h.count v hv

theorem PoolInv.accept {s : Pool} (h : PoolInv s) {r : Nat} (hr : r ∉ s.live) :
    PoolInv { s.put .master (r :: s.held .master) with live := r :: s.live } := by
  have howner : ∀ (q : Place) v, q.owner = some v → q ≠ .master := by rintro q v hq rfl; simp [Place.owner] at hq
  refine ⟨h.owned.gain hr (List.Perm.refl _), h.ringNodup, h.ring, h.workers, fun v hv a ha => ?_, h.counting,
    fun v c f hpc => ?_, fun hpc => ?_, fun v hv => ?_⟩
  · exact (Pool.held_put_of_ne (howner a v ha)).trans (h.dead v hv a ha)
  · exact h.recycling v c f hpc
  · exact h.idle hpc
  · exact h.count v hv

/-- `current_worker` moves on. -/
theorem PoolInv.rotate {s : Pool} (h : PoolInv s) {target : Nat} {rest : List Nat} (hring : s.ring = target :: rest) :
    PoolInv { s with ring := rest ++ [target] } := by
  have hperm : (rest ++ [target]).Perm s.ring := by rw [hring]; exact List.perm_append_comm
  exact ⟨h.owned, hperm.nodup_iff.mpr h.ringNodup, fun w hw => h.ring w (hperm.mem_iff.mp hw),
    by rw [hperm.length_eq]; exact h.workers, h.dead, fun w hw => hperm.mem_iff.mpr (h.counting w hw), h.recycling,
    h.idle, h.count⟩

/-- The write of a dispatch, before the request is counted. -/
theorem PoolInv.send {s : Pool} (h : PoolInv s) {r target : Nat} (hpc : s.pc = .idle) (hr : r ∈ s.held .master)
    (ht : target ∈ s.ring) :
    PoolInv { (s.put .master ((s.held .master).erase r)).put (.dispatch target) (s.held (.dispatch target) ++ [r]) with
      pc := .counting target } := by
  have hrecycled : s.held .recycled = [] := h.idle (by rw [hpc]; simp)
  have hne : Place.master ≠ .dispatch target := by simp
  refine ⟨?_, h.ringNodup, h.ring, h.workers, fun v hv a ha => ?_, fun w hw => ?_, fun w c f hw => ?_,
    fun _ => ?_, fun v hv => ?_⟩
  · exact h.owned.transfer hne (m := [r]) (perm_erase hr) List.perm_append_comm
  · have htv : target ≠ v := by rintro rfl; exact hv (h.ring target ht).1
    have ha1 : a ≠ .dispatch target := by rintro rfl; exact htv (Option.some.inj ha)
    have ha2 : a ≠ .master := by rintro rfl; simp [Place.owner] at ha
    exact (Pool.held_put_of_ne ha1).trans ((Pool.held_put_of_ne ha2).trans (h.dead v hv a ha))
  · simp only [MasterPc.counting.injEq] at hw
    exact hw ▸ ht
  · simp at hw
  · exact hrecycled
  · have hc := h.count v hv
    simp only [Pool.owed, hpc] at hc
    simp only [Pool.owed]
    by_cases htv : target = v
    · subst htv
      have hl := Pool.load_put_self (s := s.put .master ((s.held .master).erase r)) (p := .dispatch target)
        (l := s.held (.dispatch target) ++ [r]) rfl
      have hm : (s.put .master ((s.held .master).erase r)).load target = s.load target :=
        Pool.load_put (by simp [Place.owner])
      rw [hm, Pool.held_put_of_ne hne.symm] at hl
      simp only [List.length_append, List.length_singleton] at hl
      simp only [if_true]
      exact hc.trans (by simp only [Pool.load] at hl ⊢; omega)
    · have hl : ((s.put .master ((s.held .master).erase r)).put (.dispatch target)
          (s.held (.dispatch target) ++ [r])).load v = s.load v := by
        rw [Pool.load_put (by simpa [Place.owner] using htv), Pool.load_put (by simp [Place.owner])]
      simp only [htv, if_false]
      rw [← hl] at hc
      exact hc

theorem PoolInv.dispatch {s s' : Pool} (h : PoolInv s) {cap r : Nat} (hpc : s.pc = .idle) (hr : r ∈ s.held .master)
    (hs : s.workerRequestDispatch cap r = some s') : PoolInv s' := by
  unfold Pool.workerRequestDispatch at hs
  split at hs
  · cases hs; exact h
  split at hs
  · cases hs
  next target rest hring =>
  simp only at hs
  split at hs
  · cases hs
    exact (h.rotate hring).send hpc hr (by simp)
  · cases hs
    rw [Pool.held_put_self, Pool.put_put]
    exact (h.rotate hring).reorder (by simp) (List.perm_cons_erase hr).symm

/-- A read of the return pipe, the first of a recycle or a further one. -/
theorem PoolInv.recycle {s : Pool} (h : PoolInv s) {w count : Nat} {full : Bool} (hret : s.held (.ret w) ≠ [])
    (hrec : s.held .recycled = []) (howed : ∀ v, s.owed v = if w = v then (count : ℤ) else 0) :
    PoolInv { s.readPipe (.ret w) .recycled with pc := .recycling w count full } := by
  have halive : w ∈ s.alive := by
    by_contra hw
    exact hret (h.dead w hw _ rfl)
  have hheld : ∀ q : Place, q ≠ .ret w → q ≠ .recycled → (s.readPipe (.ret w) .recycled).held q = s.held q :=
    fun q h1 h2 => (Pool.held_put_of_ne h2).trans (Pool.held_put_of_ne h1)
  refine ⟨?_, h.ringNodup, h.ring, h.workers, fun v hv a ha => ?_, fun v hv => by simp at hv, fun v c f hv => ?_,
    fun hpc => ?_, fun v hv => ?_⟩
  · refine h.owned.transfer (by simp) (m := (s.held (.ret w)).take reqsSize) ?_ ?_
    · rw [List.take_append_drop]
    · rw [hrec, List.append_nil]
  · have hvw : w ≠ v := by rintro rfl; exact hv halive
    refine (hheld a ?_ ?_).trans (h.dead v hv a ha)
    · rintro rfl; exact hvw (Option.some.inj ha)
    · rintro rfl; simp [Place.owner] at ha
  · simp only [MasterPc.recycling.injEq] at hv
    obtain ⟨rfl, rfl, rfl⟩ := hv
    refine ⟨halive, ?_⟩
    have := List.length_pos_iff.mpr hret
    simp only [Pool.readPipe, Pool.held_put_self, List.length_take, reqsSize]
    omega
  · exact absurd rfl (hpc w count full)
  · have hc := h.count v hv
    rw [howed] at hc
    simp only [Pool.owed]
    by_cases hvw : w = v
    · subst hvw
      have hl := Pool.load_put_self (s := s) (p := .ret w) (l := (s.held (.ret w)).drop reqsSize) rfl
      have hm : (s.readPipe (.ret w) .recycled).load w = (s.put (.ret w) ((s.held (.ret w)).drop reqsSize)).load w :=
        Pool.load_put (by simp [Place.owner])
      have ht : ((s.readPipe (.ret w) .recycled).held .recycled).length +
          ((s.held (.ret w)).drop reqsSize).length = (s.held (.ret w)).length := by
        simp only [Pool.readPipe, Pool.held_put_self, List.length_take, List.length_drop]
        omega
      simp only [if_true] at hc ⊢
      refine hc.trans ?_
      simp only [Pool.load] at hl hm ⊢
      omega
    · have hm : (s.readPipe (.ret w) .recycled).load v = s.load v := by
        rw [Pool.readPipe, Pool.load_put (by simp [Place.owner]), Pool.load_put (by simpa [Place.owner] using hvw)]
      simp only [hvw, if_false] at hc ⊢
      rw [← hm] at hc
      exact hc

/-- A request taken from `reqs` is linked on `master_requests`. -/
theorem PoolInv.recycleOne {s : Pool} (h : PoolInv s) {w count r : Nat} {full : Bool} {rest : List Nat}
    (hpc : s.pc = .recycling w count full) (hrec : s.held .recycled = r :: rest) :
    PoolInv { (s.put .recycled rest).put .master (r :: s.held .master) with pc := .recycling w (count + 1) full } := by
  have hheld : ∀ q : Place, q ≠ .recycled → q ≠ .master →
      ((s.put .recycled rest).put .master (r :: s.held .master)).held q = s.held q :=
    fun q h1 h2 => (Pool.held_put_of_ne h2).trans (Pool.held_put_of_ne h1)
  have howner : ∀ (q : Place) v, q.owner = some v → q ≠ .recycled ∧ q ≠ .master := by
    rintro q v hq
    constructor <;> rintro rfl <;> simp [Place.owner] at hq
  obtain ⟨halive, -⟩ := h.recycling w count full hpc
  refine ⟨?_, h.ringNodup, h.ring, h.workers, fun v hv a ha => ?_, fun v hv => by simp at hv, fun v c f hv => ?_,
    fun hn => ?_, fun v hv => ?_⟩
  · refine h.owned.transfer (by simp) (m := [r]) ?_ (List.Perm.refl _)
    rw [hrec]; rfl
  · exact (hheld a (howner a v ha).1 (howner a v ha).2).trans (h.dead v hv a ha)
  · simp only [MasterPc.recycling.injEq] at hv
    obtain ⟨rfl, rfl, rfl⟩ := hv
    exact ⟨halive, by omega⟩
  · exact absurd rfl (hn w (count + 1) full)
  · have hc := h.count v hv
    have hl : ((s.put .recycled rest).put .master (r :: s.held .master)).load v = s.load v :=
      Pool.load_congr fun q hq => hheld q (howner q v hq).1 (howner q v hq).2
    have hr : (((s.put .recycled rest).put .master (r :: s.held .master)).held .recycled).length + 1 =
        (s.held .recycled).length := by
      rw [Pool.held_put_of_ne (by simp), Pool.held_put_self, hrec]; rfl
    simp only [Pool.owed, hpc] at hc
    simp only [Pool.owed]
    refine hc.trans ?_
    simp only [Pool.load] at hl ⊢
    split <;> omega

theorem PoolInv.recycleEnd {s : Pool} (h : PoolInv s) {w count : Nat} {full : Bool}
    (hpc : s.pc = .recycling w count full) (hrec : s.held .recycled = []) :
    PoolInv { s with requestNr := Function.update s.requestNr w (s.requestNr w - count), pc := .idle } := by
  refine ⟨h.owned, h.ringNodup, h.ring, h.workers, h.dead, fun v hv => by simp at hv, fun v c f hv => by simp at hv,
    fun _ => hrec, fun v hv => ?_⟩
  have hc := h.count v hv
  simp only [Pool.owed, hpc, hrec] at hc
  simp only [Pool.owed]
  by_cases hvw : v = w
  · subst hvw
    simp only [if_true, List.length_nil] at hc
    simp only [Function.update_self, hc]
    simp only [Pool.load]
    omega
  · rw [Function.update_of_ne hvw, hc, if_neg (Ne.symm hvw)]
    rfl

theorem PoolInv.counted {s : Pool} (h : PoolInv s) {w : Nat} (hpc : s.pc = .counting w) :
    PoolInv { s with requestNr := Function.update s.requestNr w (s.requestNr w + 1), pc := .idle } := by
  refine ⟨h.owned, h.ringNodup, h.ring, h.workers, h.dead, fun v hv => by simp at hv, fun v c f hv => by simp at hv,
    fun _ => h.idle (by rw [hpc]; simp), fun v hv => ?_⟩
  have hc := h.count v hv
  simp only [Pool.owed, hpc] at hc
  simp only [Pool.owed]
  by_cases hvw : v = w
  · subst hvw
    simp only [if_true] at hc
    simp only [Function.update_self, hc]
    simp only [Pool.load]
    omega
  · rw [Function.update_of_ne hvw, hc, if_neg (Ne.symm hvw)]
    rfl

/-! ## Workers come and go -/

theorem PoolInv.workerCreate {s : Pool} (h : PoolInv s) (hpc : s.pc = .idle) {w : Nat} (hw : w ∉ s.alive) :
    PoolInv (s.workerCreate w) := by
  -- A worker that is not alive holds nothing, so its places are already empty.
  have hheld : (s.workerCreate w).held = s.held := by
    funext p
    simp only [Pool.workerCreate]
    split
    · next hp => exact (h.dead w hw p hp).symm
    · rfl
  have hfresh : w ∉ s.ring := fun hm => hw (h.ring w hm).1
  have hring : (s.workerCreate w).ring.Perm (w :: s.ring) := by
    simp only [Pool.workerCreate]
    cases s.ring with
    | nil => exact List.Perm.refl _
    | cons c rest => exact List.Perm.swap _ _ _
  refine ⟨hheld ▸ h.owned, ?_, fun v hv => ?_, ?_, fun v hv a ha => ?_, fun v hv => ?_, fun v c f hv => ?_,
    fun hn => ?_, fun v hv => ?_⟩
  · exact hring.nodup_iff.mpr (List.nodup_cons.mpr ⟨hfresh, h.ringNodup⟩)
  · rcases List.mem_cons.mp (hring.mem_iff.mp hv) with rfl | hold
    · exact ⟨by simp [Pool.workerCreate], by simp [Pool.workerCreate]⟩
    · have hne : v ≠ w := by rintro rfl; exact hfresh hold
      obtain ⟨h1, h2⟩ := h.ring v hold
      exact ⟨by simp [Pool.workerCreate, h1], by simp [Pool.workerCreate, hne, h2]⟩
  · rw [hring.length_eq]
    simp [Pool.workerCreate, h.workers]
  · rw [hheld]
    exact h.dead v (fun hm => hv (by simp [Pool.workerCreate, hm])) a ha
  · rw [show (s.workerCreate w).pc = s.pc from rfl, hpc] at hv; simp at hv
  · rw [show (s.workerCreate w).pc = s.pc from rfl, hpc] at hv; simp at hv
  · rw [hheld]; exact h.idle hn
  · have hl : (s.workerCreate w).load v = s.load v := Pool.load_congr fun q _ => congrFun hheld q
    have ho : (s.workerCreate w).owed v = 0 := by
      simp only [Pool.owed, show (s.workerCreate w).pc = s.pc from rfl, hpc]
    rw [hl, ho]
    by_cases hvw : v = w
    · subst hvw
      have hz : s.load v = 0 := by
        simp [Pool.load, h.dead v hw (.dispatch v) rfl, h.dead v hw (.received v) rfl, h.dead v hw (.working v) rfl,
          h.dead v hw (.blocked v) rfl, h.dead v hw (.ret v) rfl]
      simp [Pool.workerCreate, hz]
    · have hc := h.count v ((List.mem_cons.mp hv).resolve_left hvw)
      simp only [Pool.owed, hpc] at hc
      simpa [Pool.workerCreate, hvw] using hc

theorem PoolInv.workerCreates {s : Pool} (h : PoolInv s) (hpc : s.pc = .idle) (news : List Nat) (hnd : news.Nodup)
    (hnew : ∀ w ∈ news, w ∉ s.alive) :
    PoolInv (news.foldl Pool.workerCreate s) ∧ (news.foldl Pool.workerCreate s).pc = .idle := by
  induction news generalizing s with
  | nil => exact ⟨h, hpc⟩
  | cons w news ih =>
    rw [List.nodup_cons] at hnd
    refine ih (h.workerCreate hpc (hnew w (by simp))) hpc hnd.2 fun v hv hm => ?_
    rcases List.mem_cons.mp hm with rfl | hm
    · exact hnd.1 hv
    · exact hnew v (by simp [hv]) hm

/-- Whichever worker leaves, the others stay as they were. -/
theorem PoolInv.leaveRing {s : Pool} (h : PoolInv s) (hpc : s.pc = .idle) {w : Nat} {ring : List Nat}
    (hperm : s.ring.Perm (w :: ring)) (q : Nat) : PoolInv (s.leaveRing w ring q) := by
  have hnd := List.nodup_cons.mp (hperm.nodup_iff.mp h.ringNodup)
  refine ⟨h.owned, hnd.2, fun v hv => ?_, ?_, h.dead, fun v hv => ?_, h.recycling, h.idle, h.count⟩
  · have hne : v ≠ w := by rintro rfl; exact hnd.1 hv
    obtain ⟨h1, h2⟩ := h.ring v (hperm.mem_iff.mpr (List.mem_cons_of_mem _ hv))
    exact ⟨h1, by simp [Pool.leaveRing, hne, h2]⟩
  · simp only [Pool.leaveRing, h.workers, hperm.length_eq, List.length_cons]
    omega
  · have hno : s.pc = .counting v := hv
    rw [hpc] at hno
    cases hno

theorem PoolInv.workerDelete1 {s s' : Pool} (h : PoolInv s) (hpc : s.pc = .idle) {q : Nat}
    (hs : s.workerDelete1 q = some s') : PoolInv s' ∧ s'.pc = .idle := by
  unfold Pool.workerDelete1 at hs
  split at hs
  · cases hs
  · next c hc => cases hs; exact ⟨h.leaveRing hpc (by rw [hc]) q, hpc⟩
  · next c n rest hc => cases hs; exact ⟨h.leaveRing hpc (by rw [hc]; exact List.Perm.swap _ _ _) q, hpc⟩

theorem PoolInv.workerDelete {s s' : Pool} {num q : Nat} (h : PoolInv s) (hpc : s.pc = .idle)
    (hs : Pool.workerDelete num q s = some s') : PoolInv s' ∧ s'.pc = .idle := by
  induction num generalizing s with
  | zero => cases hs; exact ⟨h, hpc⟩
  | succ num ih =>
    simp only [Pool.workerDelete, Option.bind_eq_some_iff] at hs
    obtain ⟨s₁, h₁, h₂⟩ := hs
    obtain ⟨hi, hp⟩ := h.workerDelete1 hpc h₁
    exact ih hi hp h₂

/-- A worker that is out of the ring and reads `request_nr == 0` has nothing
left, and the master is not inside a call on it. -/
theorem PoolInv.drained {s : Pool} (h : PoolInv s) {w : Nat} (hw : w ∈ s.alive) (hq : s.quitTime w ≠ 0)
    (hn : s.requestNr w = 0) :
    (∀ p : Place, p.owner = some w → s.held p = []) ∧ s.pc ≠ .counting w ∧ ∀ c f, s.pc ≠ .recycling w c f := by
  have hcount : s.pc ≠ .counting w := fun hpc => hq (h.ring w (h.counting w hpc)).2
  have hrecy : ∀ c f, s.pc ≠ .recycling w c f := by
    intro c f hpc
    have hc := h.count w hw
    have := (h.recycling w c f hpc).2
    simp only [Pool.owed, hpc, if_true] at hc
    omega
  have howed : s.owed w = 0 := by
    unfold Pool.owed
    split
    · rfl
    · next v hv => rw [if_neg]; rintro rfl; exact hcount hv
    · next v c f hv => rw [if_neg]; rintro rfl; exact hrecy c f hv
  have hload : s.load w = 0 := by have := h.count w hw; omega
  refine ⟨fun p hp => ?_, hcount, hrecy⟩
  simp only [Pool.load] at hload
  cases p <;> simp only [Place.owner, reduceCtorEq, Option.some.injEq] at hp <;> subst hp <;>
    exact List.length_eq_zero_iff.mp (by omega)

theorem PoolInv.destroy {s : Pool} (h : PoolInv s) {w : Nat} (hw : w ∈ s.alive) (hq : s.quitTime w ≠ 0)
    (hn : s.requestNr w = 0) : PoolInv { s with alive := s.alive.filter (· ≠ w) } := by
  obtain ⟨hempty, hcount, hrecy⟩ := h.drained hw hq hn
  refine ⟨h.owned, h.ringNodup, fun v hv => ?_, h.workers, fun v hv a ha => ?_, h.counting, fun v c f hpc => ?_,
    h.idle, fun v hv => h.count v (List.mem_of_mem_filter hv)⟩
  · obtain ⟨h1, h2⟩ := h.ring v hv
    exact ⟨List.mem_filter.mpr ⟨h1, by simp; rintro rfl; exact hq h2⟩, h2⟩
  · by_cases hvw : v = w
    · subst hvw; exact hempty a ha
    · exact h.dead v (fun hm => hv (List.mem_filter.mpr ⟨hm, by simpa using hvw⟩)) a ha
  · obtain ⟨h1, h2⟩ := h.recycling v c f hpc
    exact ⟨List.mem_filter.mpr ⟨h1, by simp; rintro rfl; exact hrecy c f hpc⟩, h2⟩

/-! ## Every run -/

theorem poolInv_init : PoolInv .init := by
  refine ⟨Owned.nil, List.nodup_nil, ?_, rfl, fun _ _ _ _ => rfl, ?_, ?_, fun _ => rfl, ?_⟩ <;> simp [Pool.init]

theorem PoolInv.step {cap : Nat} {s s' : Pool} {a : PoolStep} (h : PoolInv s) (hs : poolStep cap s a = some s') :
    PoolInv s' := by
  cases a with
  | accept r =>
    simp only [poolStep] at hs
    split at hs <;> cases hs
    next hc => exact h.accept hc.2
  | close r =>
    simp only [poolStep] at hs
    split at hs <;> cases hs
    next hc => exact h.close hc.2
  | dispatch r =>
    simp only [poolStep] at hs
    split at hs
    · next hc => exact h.dispatch hc.1 hc.2 hs
    · cases hs
  | counted =>
    simp only [poolStep] at hs
    split at hs <;> cases hs
    next w hpc => exact h.counted hpc
  | recycle w =>
    simp only [poolStep] at hs
    split at hs
    · cases hs
    next hret =>
    split at hs
    · next hpc =>
      cases hs
      refine h.recycle hret (h.idle (by rw [hpc]; simp)) fun v => ?_
      simp [Pool.owed, hpc]
    · next v count hpc =>
      split at hs <;> cases hs
      next hc =>
      obtain ⟨rfl, hrec⟩ := hc
      refine h.recycle hret hrec fun u => ?_
      simp [Pool.owed, hpc, hrec]
    · cases hs
  | recycleOne keepalive =>
    simp only [poolStep] at hs
    split at hs <;> cases hs
    next w count full r rest hpc hrec =>
    have hi := h.recycleOne hpc hrec
    split
    · exact hi
    · exact hi.close (by simp)
  | recycleEnd =>
    simp only [poolStep] at hs
    split at hs
    · next w count full hpc hrec =>
      split at hs <;> cases hs
      exact h.recycleEnd hpc hrec
    · cases hs
  | receive w =>
    simp only [poolStep] at hs
    split at hs <;> cases hs
    next hrec =>
    refine h.move (p := .dispatch w) (q := .received w) rfl rfl (by simp)
      (m := (s.held (.dispatch w)).take reqsSize) ?_ ?_
    · rw [List.take_append_drop]
    · rw [hrec, List.append_nil]
  | handle w finished =>
    simp only [poolStep] at hs
    split at hs <;> cases hs
    next r rest hrec =>
    have hi : PoolInv ((s.put (.received w) rest).put (.working w) (r :: s.held (.working w))) :=
      h.move rfl rfl (by simp) (m := [r]) (by rw [hrec]; rfl) (List.Perm.refl _)
    split
    · exact hi.workerRequestReturn cap (.inl rfl) (by simp)
    · exact hi
  | finish w r =>
    simp only [poolStep] at hs
    split at hs <;> cases hs
    next hr => exact h.workerRequestReturn cap (.inl rfl) hr
  | retry w r =>
    simp only [poolStep] at hs
    split at hs <;> cases hs
    next hr => exact h.workerRequestReturn cap (.inr rfl) hr
  | reload threads news =>
    simp only [poolStep, Pool.reload] at hs
    split at hs
    · next hc =>
      split at hs
      · next hn =>
        obtain ⟨hi, hpc⟩ := h.workerCreates hc.1 news hn.2.2.1 hn.2.2.2
        exact (hi.workerDelete hpc hs).1
      · cases hs
    · cases hs
  | quit q =>
    simp only [poolStep] at hs
    split at hs
    · next hc =>
      simp only [Option.map_eq_some_iff] at hs
      obtain ⟨s₁, h₁, rfl⟩ := hs
      obtain ⟨hi, hpc⟩ := h.workerDelete hc.1 h₁
      exact ⟨hi.owned, hi.ringNodup, hi.ring, hi.workers, hi.dead, hi.counting, hi.recycling, hi.idle, hi.count⟩
    · cases hs
  | destroy w =>
    simp only [poolStep] at hs
    split at hs <;> cases hs
    next hc => exact h.destroy hc.1 hc.2.2.1 hc.2.2.2

theorem poolSystem_inv {cap : Nat} {s : Pool} (h : (poolSystem cap).Reachable s) : PoolInv s :=
  System.Reach.invariant (I := PoolInv) (fun s hs => by rw [show s = .init from hs]; exact poolInv_init)
    (fun _ _ _ _ hi _ hn => hi.step hn) h

/-- A dispatch writes only to a worker of the ring. -/
theorem dispatch_target {cap : Nat} {s s' : Pool} {r w : Nat} (hs : poolStep cap s (.dispatch r) = some s')
    (hw : s'.held (.dispatch w) ≠ s.held (.dispatch w)) : w ∈ s.ring := by
  simp only [poolStep] at hs
  split at hs
  · unfold Pool.workerRequestDispatch at hs
    split at hs
    · cases hs; exact absurd rfl hw
    split at hs
    · cases hs
    next target rest hring =>
    simp only at hs
    split at hs <;> cases hs
    · by_contra hno
      refine hw ?_
      have hne : w ≠ target := by rintro rfl; exact hno (by rw [hring]; simp)
      exact (Pool.held_put_of_ne (by simpa using hne)).trans (Pool.held_put_of_ne (by simp))
    · exact absurd ((Pool.held_put_of_ne (by simp)).trans (Pool.held_put_of_ne (by simp))) hw
  · cases hs

/-- **No request is lost or duplicated between master and workers.** In every
interleaving: each open request is at exactly one place, once, and only
open requests are anywhere; outside the calls that read a pipe that place
is `master_requests`, a pipe or a list of a worker; between master steps
`request_nr` is what the worker's pipes and lists (and the array it is
reading into) hold; a dispatch goes to a worker of the ring, which has not
been told to quit; and a worker destroys itself only when it holds nothing
and the master is not in a call on it. -/
theorem request_conservation {cap : Nat} {s : Pool} (h : (poolSystem cap).Reachable s) :
    (∀ r ∈ s.live, ∃! p, r ∈ s.held p) ∧ (∀ p, (s.held p).Nodup ∧ ∀ r ∈ s.held p, r ∈ s.live) ∧
    (s.pc = .idle → s.held .recycled = [] ∧ ∀ w ∈ s.alive, s.requestNr w =
      (s.held (.dispatch w)).length + (s.held (.received w)).length + (s.held (.working w)).length +
        (s.held (.blocked w)).length + (s.held (.ret w)).length) ∧
    (∀ r s' w, poolStep cap s (.dispatch r) = some s' → s'.held (.dispatch w) ≠ s.held (.dispatch w) →
      w ∈ s.ring ∧ w ∈ s.alive ∧ s.quitTime w = 0) ∧
    (∀ w s', poolStep cap s (.destroy w) = some s' →
      (∀ p : Place, p.owner = some w → s.held p = []) ∧ s.pc ≠ .counting w ∧ ∀ c f, s.pc ≠ .recycling w c f) := by
  have hi := poolSystem_inv h
  refine ⟨fun r hr => ?_, fun p => ⟨hi.owned.nodup p, fun r hr => (hi.owned.covers r).mpr ⟨p, hr⟩⟩, fun hpc => ?_,
    fun r s' w hs hw => ?_, fun w s' hs => ?_⟩
  · obtain ⟨p, hp⟩ := (hi.owned.covers r).mp hr
    exact ⟨p, hp, fun q hq => hi.owned.unique hq hp⟩
  · refine ⟨hi.idle (by rw [hpc]; simp), fun w hw => ?_⟩
    have hc := hi.count w hw
    simp only [Pool.owed, hpc, Pool.load] at hc
    omega
  · have hring := dispatch_target hs hw
    exact ⟨hring, hi.ring w hring⟩
  · simp only [poolStep] at hs
    split at hs
    · next hc => exact hi.drained hc.1 hc.2.2.1 hc.2.2.2
    · cases hs

/-- One worker, and a request that the master has written to it. -/
theorem request_conservation_dispatched : ∃ s, (poolSystem 1).Reachable s ∧
    System.run (poolStep 1) .init [.reload 1 [0], .accept 7, .dispatch 7, .counted] = some s ∧
      (∃! p, 7 ∈ s.held p) ∧ s.requestNr 0 = 1 := by
  have h : (poolSystem 1).Reachable _ := System.Reachable.run (f := poolStep 1) (fun _ _ _ h => h) (.init rfl)
    (l := [.reload 1 [0], .accept 7, .dispatch 7, .counted]) rfl
  exact ⟨_, h, rfl, (request_conservation h).1 7 (by decide), ((request_conservation h).2.2.1 rfl).2 0 (by decide)⟩

end OliveHc
