/-
The way of a finished request back to the master (`worker_request_return`)
when `return_fd` is full.

A request that cannot be written stays with its worker, on
`blocked_requests`, and each round of the worker's loop tries again through
`request_clean`. That is also the routine that aborts, at the quit time, the
requests that are still being served; it tells the two apart by their
handler.
-/
import OliveHc.Request

namespace OliveHc

/-- What `r->event_handler` points to. -/
inductive ReqHandler
  | requestFinalize
  | requestDoFinalize
  /-- One of the calls that serve the request. -/
  | serving
deriving DecidableEq, Repr

namespace Conn

/-- The handler that `worker_request_return` leaves, whether or not its
`write` succeeds. -/
def workerRequestReturn : ReqHandler := .requestDoFinalize

/-- `request_clean` of one request of a worker. -/
def requestClean (handler : ReqHandler) (send : Bool) (c : Conn) : Option Conn :=
  if handler ≠ .requestFinalize then
    { c with broken := true, r := { c.r with errorReason := some "CleanByQuitTimeout" } }.requestFinalize send
  else c.requestFinalize send

/-- A finished request after one failed `write` for each of `sends`; these
are the results of the `send` of a code page in the retries. -/
def returned : List Bool → Conn → Option Conn
  | [], c => some c
  | send :: sends, c => (c.requestClean workerRequestReturn send).bind (returned sends)

/-- What the master does with the request in `request_do_finalize`: where it
goes from there, and the code and the reason that are logged. -/
def handling (keepaliveTimeout : Nat) (c : Conn) : Phase × Nat × Option String :=
  ((c.requestDoFinalize keepaliveTimeout).phase, c.r.httpCode, c.r.errorReason)

/-- A retry is a step of the connection. -/
theorem requestClean_eq_retry {send : Bool} {c : Conn} (hp : c.phase = .finalizing) (hw : c.worker) :
    c.requestClean workerRequestReturn send = connStep c .retry := by
  rw [connStep, if_pos ⟨hp, hw⟩, requestClean, if_pos (by decide), requestFinalize, if_neg (by simp)]
  simp [hp]

/-- Whatever the pages are, all but the first retry change nothing. -/
theorem returned_cons (send : Bool) (sends : List Bool) (c : Conn) : c.returned (send :: sends) =
    some { c with broken := true, r := { c.r with errorReason := some "CleanByQuitTimeout" }, phase := .finalizing } := by
  induction sends generalizing send c with
  | nil =>
    rw [returned, requestClean, if_pos (by decide), requestFinalize, if_neg (by simp)]
    rfl
  | cons send' sends ih =>
    have hfirst := ih send c
    rw [returned] at hfirst ⊢
    obtain ⟨c₁, hc₁, -⟩ := Option.bind_eq_some_iff.mp hfirst
    rw [requestClean, if_pos (by decide), requestFinalize, if_neg (by simp)] at hc₁ ⊢
    exact ih send' _

theorem phase_requestDoFinalize (keepaliveTimeout : Nat) (c : Conn) :
    (c.requestDoFinalize keepaliveTimeout).phase = if c.r.keepalive && !c.broken then .readHeader else .closed := by
  unfold requestDoFinalize
  simp only
  split <;> rfl

/-- **A full return pipe.** The request is handled as if its first `write` had
succeeded exactly when it has, or when the request was aborted at the quit
time before. -/
theorem returned_handling_iff (keepaliveTimeout : Nat) (sends : List Bool) (c : Conn) :
    ∃ c', c.returned sends = some c' ∧ (c'.handling keepaliveTimeout = c.handling keepaliveTimeout ↔
      sends = [] ∨ (c.r.keepalive = false ∨ c.broken) ∧ c.r.errorReason = some "CleanByQuitTimeout") := by
  cases sends with
  | nil => exact ⟨c, rfl, by simp⟩
  | cons send sends =>
    refine ⟨_, returned_cons send sends c, ?_⟩
    simp only [handling, phase_requestDoFinalize, Prod.mk.injEq, reduceCtorEq, false_or, Bool.not_true, Bool.and_false]
    cases c.r.keepalive <;> cases c.broken <;> simp [eq_comm]

/-- A hit that has been sent whole, on a connection to be kept: one failed
`write`, and the connection is closed. -/
theorem returned_handling_full : ∃ c c', connSystem.Reachable c ∧ c.phase = .finalizing ∧ c.worker = true ∧
    c.returned [true] = some c' ∧ c.handling 60 = (.readHeader, 200, none) ∧
    c'.handling 60 = (.closed, 200, some "CleanByQuitTimeout") := by
  have hrun : (System.run connStep (.accepted (lit "GET / HTTP/1.1\r\n\r\n"))
      [.recv ⟨0, 0, fun _ => -1⟩ 18, .handle .hit, .sendfile (.bytes 9) true]).bind (fun c =>
        (c.returned [true]).map fun c' => ((c.phase, c.worker), [c.handling 60, c'.handling 60])) =
      some ((.finalizing, true), [(.readHeader, 200, none), (.closed, 200, some "CleanByQuitTimeout")]) := by
    decide +kernel
  obtain ⟨c, hc, hrun⟩ := Option.bind_eq_some_iff.mp hrun
  obtain ⟨c', hc', hview⟩ := Option.map_eq_some_iff.mp hrun
  simp only [Prod.mk.injEq, List.cons.injEq, and_true] at hview
  obtain ⟨⟨hp, hw⟩, hhandling, hhandling'⟩ := hview
  have hreach : connSystem.Reachable c := .run (f := connStep) (fun _ _ _ h => h) (.init (accepted_init _)) hc
  exact ⟨c, c', hreach, hp, hw, hc', hhandling, hhandling'⟩

end Conn

end OliveHc
