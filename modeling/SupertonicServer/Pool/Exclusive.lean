import Mathlib.Data.Nat.ModEq
import SupertonicServer.Lib.Run
import SupertonicServer.Pool.Basic

/-!
# When two jobs meet on one worker

A worker is not thread-safe, and nothing but the round-robin choice keeps two jobs off it.
The choice is made at submission (`idx % n_workers`), while the executor starts the oldest
job as soon as *any* thread is free: when job `n` is started because job `1` has ended, job
`0`, on the same worker, may still be running.

`FifoInv` is what the FIFO queue gives: indices grow along the queue and every running job
is older than every queued one. Under it a start clashes exactly when a job submitted a
multiple of `n_workers` places earlier is still running (`exclusive_iff`).
-/

namespace SupertonicServer.Pool

open Lib (run StatesMeet StepsMeet run_inv statesMeet_of_inv)

variable {F : Type}

/-- No two running jobs are on the same worker. -/
def Exclusive (p : WorkerPool F) : Prop := (p.running.map Job.worker).Nodup

/-- A start is clear when no job submitted a multiple of `n_workers` places before the
started one is still running. -/
def StartClear (p : WorkerPool F) : PoolAct F → Prop
  | .exec (.start _) => ∀ j, p.queued.head? = some j → ∀ i ∈ p.running,
      ¬ (p.nWorkers : Nat) ∣ j.idx - i.idx
  | _ => True

/-- The queue is FIFO and workers are assigned round-robin. -/
structure FifoInv (p : WorkerPool F) : Prop where
  sorted : (p.queued.map Job.idx).Pairwise (· < ·)
  queued_lt : ∀ j ∈ p.queued, j.idx < p.nextWorkerIdx
  running_lt : ∀ i ∈ p.running, i.idx < p.nextWorkerIdx
  older : ∀ i ∈ p.running, ∀ j ∈ p.queued, i.idx < j.idx
  queued_worker : ∀ j ∈ p.queued, j.worker = j.idx % p.nWorkers
  running_worker : ∀ i ∈ p.running, i.worker = i.idx % p.nWorkers
  threads : p.running.length ≤ p.nWorkers

theorem started_fifoInv (n : ℕ+) : FifoInv (WorkerPool.started F n) := by
  constructor <;> simp [WorkerPool.started]

theorem submit_fifoInv {p : WorkerPool F} (h : FifoInv p) (owner : Owner)
    (text : Coalescer.Chunk) (voiceName : String) : FifoInv (p.submit owner text voiceName) where
  sorted := by
    show ((p.queued ++ [_]).map Job.idx).Pairwise (· < ·)
    rw [List.map_append, List.pairwise_append]
    refine ⟨h.sorted, by simp, ?_⟩
    intro a ha b hb
    obtain ⟨j, hj, rfl⟩ := List.mem_map.mp ha
    obtain rfl : b = p.nextWorkerIdx := by simpa using hb
    exact h.queued_lt j hj
  queued_lt := by
    intro j hj
    rcases List.mem_append.mp hj with hj | hj
    · exact Nat.lt_succ_of_lt (h.queued_lt j hj)
    · rw [List.mem_singleton.mp hj]
      exact Nat.lt_succ_self _
  running_lt := fun i hi => Nat.lt_succ_of_lt (h.running_lt i hi)
  older := by
    intro i hi j hj
    rcases List.mem_append.mp hj with hj | hj
    · exact h.older i hi j hj
    · rw [List.mem_singleton.mp hj]
      exact h.running_lt i hi
  queued_worker := by
    intro j hj
    rcases List.mem_append.mp hj with hj | hj
    · exact h.queued_worker j hj
    · rw [List.mem_singleton.mp hj]
      rfl
  running_worker := h.running_worker
  threads := h.threads

theorem abandon_fifoInv {p : WorkerPool F} (h : FifoInv p) (owner : Owner) :
    FifoInv (p.abandon owner) where
  sorted := h.sorted.sublist (List.filter_sublist.map Job.idx)
  queued_lt := fun j hj => h.queued_lt j (List.mem_of_mem_filter hj)
  running_lt := h.running_lt
  older := fun i hi j hj => h.older i hi j (List.mem_of_mem_filter hj)
  queued_worker := fun j hj => h.queued_worker j (List.mem_of_mem_filter hj)
  running_worker := h.running_worker
  threads := h.threads

theorem call_fifoInv {p : WorkerPool F} (h : FifoInv p) (k : PoolCall) : FifoInv (p.call k) := by
  cases k with
  | submit owner text voiceName => exact submit_fifoInv h owner text voiceName
  | abandon owner => exact abandon_fifoInv h owner
  | cancel c => exact ⟨h.1, h.2, h.3, h.4, h.5, h.6, h.7⟩
  | forget c => exact ⟨h.1, h.2, h.3, h.4, h.5, h.6, h.7⟩
  | collect owner => exact ⟨h.1, h.2, h.3, h.4, h.5, h.6, h.7⟩

theorem exec_fifoInv {p p' : WorkerPool F} {e : ExecAct F} (h : FifoInv p)
    (hstep : p.exec e = some p') : FifoInv p' := by
  rcases exec_cases hstep with ⟨owner, j, rest, -, hq, -, hfree, rfl⟩ |
    ⟨owner, outcome, j, -, -, -, -, rfl⟩
  · -- the head of the queue starts: older than all that waits behind it
    have hsorted := h.sorted
    rw [hq, List.map_cons, List.pairwise_cons] at hsorted
    have hmem : ∀ i ∈ rest, i ∈ p.queued := fun i hi => hq ▸ List.mem_cons_of_mem j hi
    have hj : j ∈ p.queued := hq ▸ List.mem_cons_self
    constructor
    · exact hsorted.2
    · exact fun i hi => h.queued_lt i (hmem i hi)
    · intro i hi
      rcases List.mem_append.mp hi with hi | hi
      · exact h.running_lt i hi
      · rw [List.mem_singleton.mp hi]
        exact h.queued_lt j hj
    · intro i hi k hk
      rcases List.mem_append.mp hi with hi | hi
      · exact h.older i hi k (hmem k hk)
      · rw [List.mem_singleton.mp hi]
        exact hsorted.1 _ (List.mem_map_of_mem hk)
    · exact fun i hi => h.queued_worker i (hmem i hi)
    · intro i hi
      rcases List.mem_append.mp hi with hi | hi
      · exact h.running_worker i hi
      · rw [List.mem_singleton.mp hi]
        exact h.queued_worker j hj
    · show (p.running ++ [j]).length ≤ _
      rw [List.length_append, List.length_singleton]
      exact hfree
  · -- a job ends: the others stay as old as they were
    have hsub : (p.running.eraseP fun j => decide (j.owner = owner)).Sublist p.running :=
      List.eraseP_sublist
    constructor
    · exact h.sorted
    · exact h.queued_lt
    · exact fun i hi => h.running_lt i (hsub.subset hi)
    · exact fun i hi => h.older i (hsub.subset hi)
    · exact h.queued_worker
    · exact fun i hi => h.running_worker i (hsub.subset hi)
    · exact Nat.le_trans hsub.length_le h.threads

theorem step_fifoInv {p p' : WorkerPool F} {a : PoolAct F} (h : FifoInv p)
    (hstep : p.step a = some p') : FifoInv p' := by
  cases a with
  | call k =>
    simp only [WorkerPool.step, Option.some.injEq] at hstep
    exact hstep ▸ call_fifoInv h k
  | exec e => exact exec_fifoInv h hstep

/-- Round-robin: two jobs share a worker exactly when their indices differ by a multiple of
`n_workers`. -/
theorem same_worker_iff {p : WorkerPool F} (h : FifoInv p) {i j : Job} (hi : i ∈ p.running)
    (hj : j ∈ p.queued) : i.worker = j.worker ↔ (p.nWorkers : Nat) ∣ j.idx - i.idx := by
  rw [h.running_worker i hi, h.queued_worker j hj]
  exact Nat.modEq_iff_dvd' (Nat.le_of_lt (h.older i hi j hj))

/-- A start keeps the workers exclusive exactly when it is clear. -/
theorem start_exclusive_iff {p p' : WorkerPool F} {owner : Owner} (h : FifoInv p)
    (hex : Exclusive p) (hstep : p.step (.exec (.start owner)) = some p') :
    Exclusive p' ↔ StartClear p (.exec (.start owner)) := by
  have hexec : p.exec (.start owner) = some p' := hstep
  rcases exec_cases hexec with ⟨_, j, rest, -, hq, -, -, rfl⟩ | ⟨_, _, _, he, _⟩
  · have hj : j ∈ p.queued := hq ▸ List.mem_cons_self
    -- only the started job is new among the running ones
    have hnew : Exclusive { p with queued := rest, running := p.running ++ [j] } ↔
        ∀ i ∈ p.running, i.worker ≠ j.worker := by
      unfold Exclusive
      show ((p.running ++ [j]).map Job.worker).Nodup ↔ _
      rw [List.map_append, List.map_singleton, List.nodup_append]
      constructor
      · intro hnodup i hi
        obtain ⟨-, -, hne⟩ := hnodup
        exact hne _ (List.mem_map_of_mem hi) _ (List.mem_singleton_self _)
      · intro hne
        refine ⟨hex, List.nodup_singleton _, ?_⟩
        intro a ha b hb
        obtain ⟨i, hi, rfl⟩ := List.mem_map.mp ha
        rw [List.mem_singleton.mp hb]
        exact hne i hi
    rw [hnew]
    constructor
    · intro hne k hk i hi hdvd
      obtain rfl : j = k := by simpa [hq] using hk
      exact hne i hi ((same_worker_iff h hi hj).mpr hdvd)
    · intro hclear i hi heq
      exact hclear j (by rw [hq]; rfl) i hi ((same_worker_iff h hi hj).mp heq)
  · exact absurd he (by simp)

/-- Every other step keeps the workers exclusive. -/
theorem step_exclusive {p p' : WorkerPool F} {a : PoolAct F} (h : FifoInv p)
    (hex : Exclusive p) (hclear : StartClear p a) (hstep : p.step a = some p') :
    Exclusive p' := by
  cases a with
  | call k =>
    simp only [WorkerPool.step, Option.some.injEq] at hstep
    subst hstep
    unfold Exclusive
    rw [call_running]
    exact hex
  | exec e =>
    cases e with
    | start owner => exact (start_exclusive_iff h hex hstep).mpr hclear
    | finish owner outcome =>
      have hexec : p.exec (.finish owner outcome) = some p' := hstep
      rcases exec_cases hexec with ⟨_, _, _, he, _⟩ | ⟨_, _, _, _, _, _, _, rfl⟩
      · exact absurd he (by simp)
      · exact hex.sublist (List.eraseP_sublist.map Job.worker)

/-- With one worker every start is clear: the single thread is free, so nothing runs. -/
theorem startClear_of_single {p p' : WorkerPool F} {a : PoolAct F} (hone : p.nWorkers = 1)
    (hstep : p.step a = some p') : StartClear p a := by
  cases a with
  | call k => trivial
  | exec e =>
    have hexec : p.exec e = some p' := hstep
    rcases exec_cases hexec with ⟨owner, j, rest, rfl, -, -, hfree, -⟩ | ⟨_, _, _, rfl, _⟩
    · -- the one thread is free, so nothing is running
      intro k _ i hi
      rw [hone] at hfree
      have hnil : p.running = [] := List.eq_nil_of_length_eq_zero (Nat.lt_one_iff.mp hfree)
      rw [hnil] at hi
      exact absurd hi List.not_mem_nil
    · trivial

theorem step_nWorkers {p p' : WorkerPool F} {a : PoolAct F} (hstep : p.step a = some p') :
    p'.nWorkers = p.nWorkers := by
  cases a with
  | call k =>
    simp only [WorkerPool.step, Option.some.injEq] at hstep
    rw [← hstep, call_nWorkers]
  | exec e => exact exec_nWorkers hstep

/-- A run whose starts are clear never has two jobs on one worker. -/
theorem exclusive_of_clear {p : WorkerPool F} {acts : List (PoolAct F)} (h : FifoInv p)
    (hex : Exclusive p) (hclear : StepsMeet WorkerPool.step StartClear p acts) :
    StatesMeet WorkerPool.step Exclusive p acts := by
  intro pre post s hsplit hrun
  exact (statesMeet_of_inv (I := fun q => FifoInv q ∧ Exclusive q)
    (fun q a q' hI hc hs => ⟨step_fifoInv hI.1 hs, step_exclusive hI.1 hI.2 hc hs⟩)
    hclear ⟨h, hex⟩ pre post s hsplit hrun).2

/-- **Worker exclusivity**, run by run: on a started pool no reached state has two jobs on
one worker exactly when no job is started while one submitted a multiple of `n_workers`
places before it is still running. With one worker every run is of this kind. -/
theorem exclusive_iff (n : ℕ+) (acts : List (PoolAct F)) :
    (StatesMeet WorkerPool.step Exclusive (WorkerPool.started F n) acts ↔
      StepsMeet WorkerPool.step StartClear (WorkerPool.started F n) acts) ∧
    (n = 1 → StatesMeet WorkerPool.step Exclusive (WorkerPool.started F n) acts) := by
  have hinv : StatesMeet WorkerPool.step FifoInv (WorkerPool.started F n) acts :=
    fun pre _ s _ hrun => run_inv (fun q a q' hI hs => step_fifoInv hI hs)
      (started_fifoInv n) hrun
  have hinit : Exclusive (WorkerPool.started F n) := List.nodup_nil
  refine ⟨⟨?_, exclusive_of_clear (started_fifoInv n) hinit⟩, ?_⟩
  · -- the states before and after a step are reached, so both are exclusive
    intro hex pre a post s s' hsplit hrun hstep
    have hs : Exclusive s := hex pre (a :: post) s hsplit hrun
    have hs' : Exclusive s' := by
      refine hex (pre ++ [a]) post s' (by rw [hsplit]; simp) ?_
      exact Lib.run_trans hrun (by rw [Lib.run_singleton]; exact hstep)
    cases a with
    | call k => trivial
    | exec e =>
      cases e with
      | start owner => exact (start_exclusive_iff (hinv pre _ s hsplit hrun) hs hstep).mp hs'
      | finish owner outcome => trivial
  · intro hone
    subst hone
    apply exclusive_of_clear (started_fifoInv 1) hinit
    intro pre a post s s' _ hrun hstep
    have hone : s.nWorkers = 1 :=
      run_inv (I := fun q => q.nWorkers = 1)
        (fun q b q' hI hs => (step_nWorkers hs).trans hI) rfl hrun
    exact startClear_of_single hone hstep

/-- Three tasks on a pool of two: jobs `0` and `1` start, job `1` ends, job `2` starts on
worker `0` beside job `0`. -/
def overtakingRun : List (PoolAct Unit) :=
  [.call (.submit ⟨0, "a"⟩ ['a'] "F1"), .call (.submit ⟨0, "b"⟩ ['b'] "F1"),
    .call (.submit ⟨0, "c"⟩ ['c'] "F1"), .exec (.start ⟨0, "a"⟩), .exec (.start ⟨0, "b"⟩),
    .exec (.finish ⟨0, "b"⟩ (.ok ⟨[], Audio.nativeSr⟩)), .exec (.start ⟨0, "c"⟩)]

theorem overtaking_shares_worker :
    ¬ StatesMeet WorkerPool.step Exclusive (WorkerPool.started Unit 2) overtakingRun := by
  intro h
  have hbad := h overtakingRun [] _ (by simp) rfl
  exact absurd hbad (by unfold Exclusive; decide)

end SupertonicServer.Pool
