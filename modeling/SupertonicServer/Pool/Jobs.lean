import Mathlib.Data.List.Perm.Basic
import SupertonicServer.Pool.Basic

/-!
# The jobs of one emit task

An emit task has at most one job in the pool, and the executor only moves it from the queue
to a thread and from there to the resolved futures. `jobsOf owner` are the jobs of one task
wherever they are; the lemmas say what each call and each step of the executor does to them.
-/

namespace SupertonicServer.Pool

open Coalescer (Chunk)
open scoped List

variable {F : Type}

/-- Erasing the first match takes out exactly the element `find?` returns. -/
theorem eraseP_of_find? {α : Type} {q : α → Bool} {l : List α} {a : α}
    (h : l.find? q = some a) :
    ∃ before after, l = before ++ a :: after ∧ l.eraseP q = before ++ after := by
  obtain ⟨ha, before, after, hsplit, hbefore⟩ := List.find?_eq_some_iff_append.mp h
  refine ⟨before, after, hsplit, ?_⟩
  rw [hsplit, List.eraseP_append_right _ (by simpa using hbefore), List.eraseP_cons_of_pos ha]

/-- Every job in the pool: waiting, on a thread, or done and not yet collected. -/
def WorkerPool.jobs (p : WorkerPool F) : List Job :=
  p.queued ++ p.running ++ p.resolved.map Prod.fst

/-- The jobs of one emit task. -/
def WorkerPool.jobsOf (p : WorkerPool F) (owner : Owner) : List Job :=
  p.jobs.filter fun j => j.owner = owner

theorem mem_jobsOf {p : WorkerPool F} {owner : Owner} {j : Job} :
    j ∈ p.jobsOf owner ↔ j ∈ p.jobs ∧ j.owner = owner := by
  simp [WorkerPool.jobsOf]

/-- A job that is looked up by its owner is one of the owner's jobs. -/
theorem result?_mem {p : WorkerPool F} {owner : Owner} {o : Outcome F}
    (h : p.result? owner = some o) :
    ∃ j, (j, o) ∈ p.resolved ∧ j.owner = owner ∧ j ∈ p.jobsOf owner := by
  obtain ⟨⟨j, o'⟩, hfind, rfl⟩ := Option.map_eq_some_iff.mp h
  have hmem : (j, o') ∈ p.resolved := List.mem_of_find?_eq_some hfind
  have howner : j.owner = owner := by simpa using List.find?_some hfind
  refine ⟨j, hmem, howner, mem_jobsOf.mpr ⟨?_, howner⟩⟩
  exact List.mem_append_right _ (List.mem_map.mpr ⟨_, hmem, rfl⟩)

/-- A job that has left the queue and the threads has its result waiting. -/
theorem result?_of_idle {p : WorkerPool F} (hqueued : p.queued = []) (hrunning : p.running = [])
    {owner : Owner} {j : Job} (hj : j ∈ p.jobsOf owner) : ∃ o, p.result? owner = some o := by
  obtain ⟨hin, howner⟩ := mem_jobsOf.mp hj
  rw [WorkerPool.jobs, hqueued, hrunning] at hin
  obtain ⟨r, hr, rfl⟩ := List.mem_map.mp hin
  apply Option.ne_none_iff_exists'.mp
  intro hnone
  have hother := List.find?_eq_none.mp (Option.map_eq_none_iff.mp hnone) r hr
  exact absurd howner (by simpa using hother)

/-- The executor moves jobs about; it makes none and loses none. -/
theorem exec_jobs_perm {p p' : WorkerPool F} {e : ExecAct F} (h : p.exec e = some p') :
    p'.jobs.Perm p.jobs := by
  rcases exec_cases h with ⟨_, j, rest, _, hq, _, _, rfl⟩ | ⟨owner, o, j, _, hj, _, hfind, rfl⟩
  · -- the head of the queue goes to the end of the running jobs
    show (rest ++ (p.running ++ [j]) ++ p.resolved.map Prod.fst).Perm
      (p.queued ++ p.running ++ p.resolved.map Prod.fst)
    rw [hq]
    refine List.Perm.append_right _ ?_
    calc rest ++ (p.running ++ [j])
        = (rest ++ p.running) ++ [j] := (List.append_assoc _ _ _).symm
      _ ~ j :: (rest ++ p.running) := List.perm_append_singleton _ _
  · -- a running job goes to the end of the resolved ones
    show (p.queued ++ p.running.eraseP _ ++ (p.resolved ++ [(j, o)]).map Prod.fst).Perm
      (p.queued ++ p.running ++ p.resolved.map Prod.fst)
    obtain ⟨before, after, hsplit, herase⟩ := eraseP_of_find? hfind
    rw [herase, hsplit, List.map_append, List.append_assoc p.queued, List.append_assoc p.queued]
    refine List.Perm.append_left _ ?_
    calc before ++ after ++ (p.resolved.map Prod.fst ++ [j])
        = (before ++ after ++ p.resolved.map Prod.fst) ++ [j] := (List.append_assoc _ _ _).symm
      _ ~ j :: (before ++ after ++ p.resolved.map Prod.fst) := List.perm_append_singleton _ _
      _ = j :: (before ++ (after ++ p.resolved.map Prod.fst)) := by rw [List.append_assoc]
      _ ~ before ++ j :: (after ++ p.resolved.map Prod.fst) := List.perm_middle.symm
      _ = before ++ j :: after ++ p.resolved.map Prod.fst := by simp

theorem exec_jobsOf_perm {p p' : WorkerPool F} {e : ExecAct F} (h : p.exec e = some p')
    (owner : Owner) : (p'.jobsOf owner).Perm (p.jobsOf owner) :=
  (exec_jobs_perm h).filter _

/-- A submission adds one job for its own task. -/
theorem jobsOf_submit_self {p : WorkerPool F} {owner : Owner} (text : Chunk) (voice : String)
    (hnone : p.jobsOf owner = []) :
    ∃ j, (p.submit owner text voice).jobsOf owner = [j] ∧ j.text = text ∧
      j.voiceName = voice := by
  have hparts : p.queued.filter (fun j => j.owner = owner) = [] ∧
      p.running.filter (fun j => j.owner = owner) = [] ∧
      (p.resolved.map Prod.fst).filter (fun j => j.owner = owner) = [] := by
    simpa only [WorkerPool.jobsOf, WorkerPool.jobs, List.filter_append, List.append_eq_nil_iff,
      and_assoc] using hnone
  obtain ⟨hq, hr, hd⟩ := hparts
  refine ⟨⟨p.nextWorkerIdx, p.nextWorkerIdx % p.nWorkers, owner, text, voice⟩, ?_, rfl, rfl⟩
  simp only [WorkerPool.jobsOf, WorkerPool.jobs, WorkerPool.submit, List.filter_append]
  rw [hq, hr, hd]
  simp

theorem jobsOf_submit_ne {p : WorkerPool F} {owner other : Owner} (text : Chunk)
    (voice : String) (hne : owner ≠ other) :
    (p.submit owner text voice).jobsOf other = p.jobsOf other := by
  simp [WorkerPool.jobsOf, WorkerPool.jobs, WorkerPool.submit, List.filter_append, hne]

/-- Collecting takes away only what is the collector's own. -/
theorem jobsOf_collect_ne {p : WorkerPool F} {owner other : Owner} (hne : owner ≠ other) :
    (p.collect owner).jobsOf other = p.jobsOf other := by
  have hmap : ∀ l : List (Job × Outcome F),
      ((l.eraseP fun r => r.1.owner = owner).map Prod.fst).filter (fun j => j.owner = other) =
        (l.map Prod.fst).filter (fun j => j.owner = other) := by
    intro l
    induction l with
    | nil => rfl
    | cons r l ih =>
      by_cases h : r.1.owner = owner
      · -- what is collected is not a job of the other task
        have hno : ¬ r.1.owner = other := fun h' => hne (h.symm.trans h')
        rw [List.eraseP_cons_of_pos (by simpa using h), List.map_cons,
          List.filter_cons_of_neg (by simpa using hno)]
      · rw [List.eraseP_cons_of_neg (by simpa using h), List.map_cons, List.map_cons,
          List.filter_cons, List.filter_cons, ih]
  simp only [WorkerPool.jobsOf, WorkerPool.jobs, WorkerPool.collect, List.filter_append]
  rw [hmap]

/-- A task that collects its only job has none left. -/
theorem jobsOf_collect_self {p : WorkerPool F} {owner : Owner} {o : Outcome F} {j : Job}
    (hres : p.result? owner = some o) (hjobs : p.jobsOf owner = [j]) :
    (p.collect owner).jobsOf owner = [] := by
  obtain ⟨⟨i, o'⟩, hfind, rfl⟩ := Option.map_eq_some_iff.mp hres
  obtain ⟨before, after, hsplit, herase⟩ := eraseP_of_find? hfind
  have hi : i.owner = owner := by simpa using List.find?_some hfind
  -- the collected job is one of the task's jobs, so the others are none
  have hcount : (p.jobsOf owner).length = ((p.collect owner).jobsOf owner).length + 1 := by
    simp only [WorkerPool.jobsOf, WorkerPool.jobs, WorkerPool.collect, List.filter_append]
    rw [herase, hsplit]
    simp only [List.map_append, List.map_cons, List.filter_append, List.filter_cons, hi,
      decide_true, if_true, List.length_append, List.length_cons]
    omega
  rw [hjobs] at hcount
  exact List.eq_nil_of_length_eq_zero (by simpa using hcount.symm)

theorem jobsOf_abandon_ne {p : WorkerPool F} {owner other : Owner} (hne : owner ≠ other) :
    (p.abandon owner).jobsOf other = p.jobsOf other := by
  have hkeep : ∀ j : Job, (decide (j.owner = other) && decide (j.owner ≠ owner)) =
      decide (j.owner = other) := by
    intro j
    by_cases h : j.owner = other
    · simp [h, hne.symm]
    · simp [h]
  simp only [WorkerPool.jobsOf, WorkerPool.jobs, WorkerPool.abandon, List.filter_append,
    List.filter_filter, hkeep]

/-! ## Calls of one emit task -/

/-- The call is made for the context `c` of session `sid`. -/
def PoolCall.Concerns (sid : Nat) (c : String) : PoolCall → Prop
  | .cancel d => d = c
  | .forget d => d = c
  | .submit owner _ _ => owner = ⟨sid, c⟩
  | .collect owner => owner = ⟨sid, c⟩
  | .abandon owner => owner = ⟨sid, c⟩

section Concerns

variable {p : WorkerPool F} {sid : Nat} {c : String} {ks : List PoolCall}

/-- Such calls leave the flags of other contexts alone. -/
theorem calls_cancelled_ne (hks : ∀ k ∈ ks, k.Concerns sid c) {d : String} (hne : d ≠ c) :
    d ∈ (p.calls ks).cancelled ↔ d ∈ p.cancelled := by
  induction ks generalizing p with
  | nil => rfl
  | cons k ks ih =>
    rw [calls_cons, ih fun k' hk' => hks k' (List.mem_cons_of_mem _ hk')]
    have hk := hks k List.mem_cons_self
    cases k with
    | cancel e =>
      obtain rfl : e = c := hk
      simp [WorkerPool.call, WorkerPool.cancel, hne]
    | forget e =>
      obtain rfl : e = c := hk
      simp [WorkerPool.call, WorkerPool.forget, hne]
    | submit | collect | abandon => rfl

/-- They leave the jobs of other tasks alone. -/
theorem calls_jobsOf_ne (hks : ∀ k ∈ ks, k.Concerns sid c) {other : Owner}
    (hne : other ≠ ⟨sid, c⟩) : (p.calls ks).jobsOf other = p.jobsOf other := by
  induction ks generalizing p with
  | nil => rfl
  | cons k ks ih =>
    rw [calls_cons, ih fun k' hk' => hks k' (List.mem_cons_of_mem _ hk')]
    have hk := hks k List.mem_cons_self
    cases k with
    | cancel | forget => rfl
    | submit owner text voice =>
      obtain rfl : owner = ⟨sid, c⟩ := hk
      exact jobsOf_submit_ne text voice hne.symm
    | collect owner =>
      obtain rfl : owner = ⟨sid, c⟩ := hk
      exact jobsOf_collect_ne hne.symm
    | abandon owner =>
      obtain rfl : owner = ⟨sid, c⟩ := hk
      exact jobsOf_abandon_ne hne.symm

end Concerns

/-- No call resolves a job. -/
theorem mem_calls_resolved {p : WorkerPool F} {ks : List PoolCall} {r : Job × Outcome F}
    (h : r ∈ (p.calls ks).resolved) : r ∈ p.resolved := by
  induction ks generalizing p with
  | nil => exact h
  | cons k ks ih =>
    have hk := ih h
    cases k with
    | collect owner => exact List.mem_of_mem_eraseP hk
    | cancel | forget | submit | abandon => exact hk

@[simp] theorem calls_ready (p : WorkerPool F) (ks : List PoolCall) :
    (p.calls ks).ready = p.ready := by
  induction ks generalizing p with
  | nil => rfl
  | cons k ks ih => rw [calls_cons, ih, call_ready]

end SupertonicServer.Pool
