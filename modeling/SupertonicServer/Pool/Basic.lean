import Mathlib.Data.Finset.Basic
import Mathlib.Data.PNat.Basic
import SupertonicServer.Audio.Pipeline
import SupertonicServer.Coalescer.Basic

/-!
# The worker pool

`WorkerPool` of `pool.py` with the `ThreadPoolExecutor` it submits to. The pool's own state
is the set of cancelled context ids and the round-robin counter; the executor's is its FIFO
work queue, the jobs on its threads, and the futures that are resolved but not yet collected
by the task that awaits them.

`synthesize` is one coroutine with one await, the executor call, so it is modelled as what
runs before it (`synthesizeStart`, `submit`) and what runs after it (`synthesizeEnd`). A
session acts on the pool through `PoolCall`s, the executor through `ExecAct`s; how long a job
runs and what it returns are in the action.

A worker is its index in `_workers`; `start` builds `n_workers` distinct ones.
-/

namespace SupertonicServer.Pool

open Coalescer (Chunk)
open Audio (SynthResult)

/-- The emit task that awaits a job: its session and its context id. -/
structure Owner where
  session : Nat
  contextId : String
deriving DecidableEq

/-- A call of `worker.synthesize` handed to the executor. `idx` is the value of
`_next_worker_idx` it was submitted under. -/
structure Job where
  idx : Nat
  worker : Nat
  owner : Owner
  text : Chunk
  voiceName : String
deriving DecidableEq

/-- How a job ends: with a result, or with the message of an exception. -/
abbrev Outcome (F : Type) := Except String (SynthResult F)

structure WorkerPool (F : Type) where
  nWorkers : ℕ+
  ready : Bool
  cancelled : Finset String
  nextWorkerIdx : Nat
  queued : List Job
  running : List Job
  resolved : List (Job × Outcome F)

variable {F : Type}

/-- `WorkerPool(n_workers)` after `start()`; `__init__` refuses `n_workers < 1`. -/
def WorkerPool.started (F : Type) (n : ℕ+) : WorkerPool F :=
  { nWorkers := n, ready := true, cancelled := ∅, nextWorkerIdx := 0, queued := [],
    running := [], resolved := [] }

/-! ## The calls of a session -/

def WorkerPool.cancel (p : WorkerPool F) (contextId : String) : WorkerPool F :=
  { p with cancelled := insert contextId p.cancelled }

def WorkerPool.forget (p : WorkerPool F) (contextId : String) : WorkerPool F :=
  { p with cancelled := p.cancelled.erase contextId }

def WorkerPool.isCancelled (p : WorkerPool F) (contextId : String) : Bool :=
  contextId ∈ p.cancelled

/-- What `synthesize` does before its await. -/
inductive SynthStart where
  | raises (message : String)
  | returnsNone
  | submits

/-- The checks of `synthesize` before the submission. -/
def WorkerPool.synthesizeStart (p : WorkerPool F) (contextId : String) : SynthStart :=
  if !p.ready then .raises "pool not started — call start() first"
  else if p.isCancelled contextId then .returnsNone
  else .submits

/-- The submission of `synthesize`: round-robin worker, next index, executor queue. -/
def WorkerPool.submit (p : WorkerPool F) (owner : Owner) (text : Chunk) (voiceName : String) :
    WorkerPool F :=
  { p with
    nextWorkerIdx := p.nextWorkerIdx + 1
    queued := p.queued ++
      [{ idx := p.nextWorkerIdx, worker := p.nextWorkerIdx % p.nWorkers, owner := owner,
         text := text, voiceName := voiceName }] }

/-- What `synthesize` returns or raises after its await. -/
def WorkerPool.synthesizeEnd (p : WorkerPool F) (contextId : String) (outcome : Outcome F) :
    Except String (Option (SynthResult F)) :=
  match outcome with
  | .error message => .error message
  -- the flag is asked again: the caller may have cancelled in the meantime
  | .ok result => .ok (if p.isCancelled contextId then none else some result)

/-- The result `owner` awaits, if the executor has delivered it. -/
def WorkerPool.result? (p : WorkerPool F) (owner : Owner) : Option (Outcome F) :=
  (p.resolved.find? fun r => r.1.owner = owner).map Prod.snd

/-- The awaiting task takes its result. -/
def WorkerPool.collect (p : WorkerPool F) (owner : Owner) : WorkerPool F :=
  { p with resolved := p.resolved.eraseP fun r => r.1.owner = owner }

/-- The awaiting task is cancelled: its job is dropped if it has not started, and runs to its
end for nobody if it has. -/
def WorkerPool.abandon (p : WorkerPool F) (owner : Owner) : WorkerPool F :=
  { p with queued := p.queued.filter fun j => j.owner ≠ owner }

/-- A call of a session that changes the pool. -/
inductive PoolCall where
  | cancel (contextId : String)
  | forget (contextId : String)
  | submit (owner : Owner) (text : Chunk) (voiceName : String)
  | collect (owner : Owner)
  | abandon (owner : Owner)
deriving DecidableEq

def WorkerPool.call (p : WorkerPool F) : PoolCall → WorkerPool F
  | .cancel c => p.cancel c
  | .forget c => p.forget c
  | .submit owner text voiceName => p.submit owner text voiceName
  | .collect owner => p.collect owner
  | .abandon owner => p.abandon owner

/-- The calls of one atomic block, in order. -/
def WorkerPool.calls (p : WorkerPool F) (ks : List PoolCall) : WorkerPool F :=
  ks.foldl WorkerPool.call p

/-! ## The executor -/

/-- A step of the executor: a free thread takes the job at the front of the queue, or a
running job ends. -/
inductive ExecAct (F : Type) where
  | start (owner : Owner)
  | finish (owner : Owner) (outcome : Outcome F)

def WorkerPool.exec (p : WorkerPool F) : ExecAct F → Option (WorkerPool F)
  | .start owner =>
    match p.queued with
    | [] => none
    | j :: rest =>
      -- FIFO: only the front of the queue starts, and only on a free thread
      if j.owner = owner ∧ p.running.length < p.nWorkers then
        some { p with queued := rest, running := p.running ++ [j] }
      else none
  | .finish owner outcome =>
    match p.running.find? fun j => j.owner = owner with
    | none => none
    | some j =>
      some { p with
        running := p.running.eraseP fun j => j.owner = owner
        resolved := p.resolved ++ [(j, outcome)] }

/-- A step of the pool: a session's call, or the executor. -/
inductive PoolAct (F : Type) where
  | call (k : PoolCall)
  | exec (e : ExecAct F)

def WorkerPool.step (p : WorkerPool F) : PoolAct F → Option (WorkerPool F)
  | .call k => some (p.call k)
  | .exec e => p.exec e

/-! ## What the steps leave alone -/

@[simp] theorem isCancelled_iff (p : WorkerPool F) (c : String) :
    p.isCancelled c = true ↔ c ∈ p.cancelled := by
  simp [WorkerPool.isCancelled]

@[simp] theorem calls_nil (p : WorkerPool F) : p.calls [] = p := rfl

@[simp] theorem calls_cons (p : WorkerPool F) (k : PoolCall) (ks : List PoolCall) :
    p.calls (k :: ks) = (p.call k).calls ks := rfl

@[simp] theorem call_nWorkers (p : WorkerPool F) (k : PoolCall) :
    (p.call k).nWorkers = p.nWorkers := by
  cases k <;> rfl

@[simp] theorem call_ready (p : WorkerPool F) (k : PoolCall) : (p.call k).ready = p.ready := by
  cases k <;> rfl

@[simp] theorem call_running (p : WorkerPool F) (k : PoolCall) :
    (p.call k).running = p.running := by
  cases k <;> rfl

/-- An executor step that is enabled, written out. -/
theorem exec_cases {p p' : WorkerPool F} {e : ExecAct F} (h : p.exec e = some p') :
    (∃ owner j rest, e = .start owner ∧ p.queued = j :: rest ∧ j.owner = owner ∧
      p.running.length < p.nWorkers ∧
      p' = { p with queued := rest, running := p.running ++ [j] }) ∨
    (∃ owner outcome j, e = .finish owner outcome ∧ j ∈ p.running ∧ j.owner = owner ∧
      p.running.find? (fun j => j.owner = owner) = some j ∧
      p' = { p with running := p.running.eraseP (fun j => j.owner = owner)
                    resolved := p.resolved ++ [(j, outcome)] }) := by
  cases e with
  | start owner =>
    left
    simp only [WorkerPool.exec] at h
    split at h
    next => exact absurd h (by simp)
    next j rest hq =>
      split at h
      next hcond =>
        simp only [Option.some.injEq] at h
        exact ⟨owner, j, rest, rfl, hq, hcond.1, hcond.2, h.symm⟩
      next => exact absurd h (by simp)
  | finish owner outcome =>
    right
    simp only [WorkerPool.exec] at h
    split at h
    next => exact absurd h (by simp)
    next j hj =>
      simp only [Option.some.injEq] at h
      exact ⟨owner, outcome, j, rfl, List.mem_of_find?_eq_some hj,
        by simpa using List.find?_some hj, hj, h.symm⟩

theorem exec_cancelled {p p' : WorkerPool F} {e : ExecAct F} (h : p.exec e = some p') :
    p'.cancelled = p.cancelled := by
  rcases exec_cases h with ⟨_, _, _, _, _, _, _, rfl⟩ | ⟨_, _, _, _, _, _, _, rfl⟩ <;> rfl

theorem exec_nWorkers {p p' : WorkerPool F} {e : ExecAct F} (h : p.exec e = some p') :
    p'.nWorkers = p.nWorkers := by
  rcases exec_cases h with ⟨_, _, _, _, _, _, _, rfl⟩ | ⟨_, _, _, _, _, _, _, rfl⟩ <;> rfl

theorem exec_ready {p p' : WorkerPool F} {e : ExecAct F} (h : p.exec e = some p') :
    p'.ready = p.ready := by
  rcases exec_cases h with ⟨_, _, _, _, _, _, _, rfl⟩ | ⟨_, _, _, _, _, _, _, rfl⟩ <;> rfl

end SupertonicServer.Pool
