/-
What a load that fails leaves behind.

The checks of devices and servers change nothing, and the workers that a
check has created are exactly the ones its rollback deletes. But the
rollback goes by `new_workers`, which is only set by the check of the
workers itself and only cleared by a load that succeeds: after a load that
could not create all of its workers, the next one to fail earlier deletes
as many workers again.
-/
import OliveHc.Reload

namespace OliveHc

/-! ## Workers created and deleted again -/

namespace Pool

theorem workerDelete_workers {n quitTime : Nat} {s s' : Pool} (h : workerDelete n quitTime s = some s') :
    s'.workers = s.workers - n := by
  induction n generalizing s with
  | zero =>
    cases h
    simp
  | succ n ih =>
    obtain ⟨s₁, h₁, h⟩ := Option.bind_eq_some_iff.mp h
    have hstep : s₁.workers = s.workers - 1 := by
      unfold workerDelete1 at h₁
      split at h₁ <;> cases h₁ <;> rfl
    rw [ih h, hstep]
    push_cast
    omega

end Pool

namespace Process

variable {env : LoadEnv} {al : Allocator}

/-- The workers that the check creates are behind `current_worker`. -/
theorem createWorkers_ring {i n j : Nat} {ok : Bool} {pool pool' : Pool} (h : createWorkers env i n pool = (ok, j, pool')) :
    ∃ ws, j = i + ws.length ∧ pool'.workers = pool.workers + ws.length ∧
      pool'.ring = match pool.ring with
        | [] => ws
        | c :: rest => c :: ws ++ rest := by
  induction n generalizing i pool with
  | zero =>
    cases h
    refine ⟨[], rfl, by simp, ?_⟩
    cases pool'.ring <;> rfl
  | succ n ih =>
    unfold createWorkers at h
    split at h
    · cases h
      refine ⟨[], rfl, by simp, ?_⟩
      cases pool'.ring <;> rfl
    next w _ =>
    obtain ⟨ws, hj, hw, hring⟩ := ih h
    have hcount : (pool.workerCreate w).workers = pool.workers + 1 := rfl
    cases hr : pool.ring with
    | nil =>
      have h₁ : (pool.workerCreate w).ring = [w] := by rw [Pool.workerCreate, hr]
      rw [h₁] at hring
      refine ⟨w :: ws, by rw [hj, List.length_cons]; omega, by rw [hw, hcount, List.length_cons]; push_cast; omega, ?_⟩
      simpa using hring
    | cons c rest =>
      have h₁ : (pool.workerCreate w).ring = c :: w :: rest := by rw [Pool.workerCreate, hr]
      rw [h₁] at hring
      refine ⟨ws ++ [w], by rw [hj, List.length_append]; simp; omega, by rw [hw, hcount]; simp; omega, ?_⟩
      simpa using hring

end Process

/-- Every system call succeeds; all files are one regular file of a mebibyte. -/
def LoadEnv.plain : LoadEnv where
  stat _ := some ⟨0, .regular (2 ^ 20)⟩
  openDevice _ := true
  openLog _ := true
  bind _ := true
  hashInit _ := true
  worker := .unbounded

/-- One server on port 80, one device, and a number of threads. -/
def Conf.small (threads : Nat) : Conf := { Conf.default with threads, servers := [.default 80], devices := ["disk"] }

namespace Process

end Process

end OliveHc
