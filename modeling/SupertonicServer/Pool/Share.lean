import SupertonicServer.Pool.Jobs

/-!
# The share of one session

What a pool holds for one session: its calls of `worker.synthesize` in the order they wait,
run and come back, without the index and the worker the round-robin gave them, which no
session ever sees. Calls and executor steps of other sessions leave it alone, and its own
move it the same way in every pool that holds the same share; so a session can be moved from
a pool it shares to one of its own.
-/

namespace SupertonicServer.Pool

open Coalescer (Chunk)

variable {F : Type}

/-- A job as its session sees it. -/
structure Ask where
  owner : Owner
  text : Chunk
  voiceName : String

def Job.ask (j : Job) : Ask := { owner := j.owner, text := j.text, voiceName := j.voiceName }

structure Share (F : Type) where
  queued : List Ask
  running : List Ask
  resolved : List (Ask × Outcome F)

def WorkerPool.share (p : WorkerPool F) (sid : Nat) : Share F :=
  { queued := (p.queued.filter fun j => j.owner.session = sid).map Job.ask
    running := (p.running.filter fun j => j.owner.session = sid).map Job.ask
    resolved := (p.resolved.filter fun r => r.1.owner.session = sid).map
      fun r => (r.1.ask, r.2) }

/-- Every job in the pool is of the session `sid`. -/
def WorkerPool.Only (p : WorkerPool F) (sid : Nat) : Prop := ∀ j ∈ p.jobs, j.owner.session = sid

/-- The session a call is made for; flags are not kept by session. -/
def PoolCall.session? : PoolCall → Option Nat
  | .cancel _ => none
  | .forget _ => none
  | .submit owner _ _ => some owner.session
  | .collect owner => some owner.session
  | .abandon owner => some owner.session

theorem PoolCall.Concerns.session? {k : PoolCall} {sid : Nat} {c : String}
    (h : k.Concerns sid c) : k.session? = none ∨ k.session? = some sid := by
  cases k with
  | cancel | forget => exact Or.inl rfl
  | submit owner | collect owner | abandon owner =>
    obtain rfl : owner = ⟨sid, c⟩ := h
    exact Or.inr rfl

/-- The owner of the job a step of the executor moves. -/
def ExecAct.owner : ExecAct F → Owner
  | .start owner => owner
  | .finish owner _ => owner

/-! ## Looking a job up in a share -/

section Lookup

variable {α β : Type} {u : α → Owner} {v : β → Owner} {f : α → β} {sid : Nat}
  {owner : Owner}

/-- A job of the session is found in the share as it is in the pool. -/
theorem find?_filter_map (hf : ∀ a, v (f a) = u a) (howner : owner.session = sid)
    (l : List α) :
    ((l.filter fun a => (u a).session = sid).map f).find? (fun b => v b = owner) =
      (l.find? fun a => u a = owner).map f := by
  rw [List.find?_map, List.find?_filter]
  congr 2
  funext a
  by_cases ha : u a = owner
  · simp [hf, ha, howner]
  · simp [hf, ha]

theorem eraseP_filter_map (hf : ∀ a, v (f a) = u a) (howner : owner.session = sid)
    (l : List α) :
    ((l.filter fun a => (u a).session = sid).map f).eraseP (fun b => v b = owner) =
      ((l.eraseP fun a => u a = owner).filter fun a => (u a).session = sid).map f := by
  rw [List.eraseP_map, List.eraseP_filter]
  congr 3
  funext a
  by_cases ha : u a = owner
  · simp [hf, ha, howner]
  · simp [hf, ha]

/-- Erasing a job of another session leaves the share alone. -/
theorem filter_eraseP_other (howner : owner.session ≠ sid) (l : List α) :
    (l.eraseP fun a => u a = owner).filter (fun a => (u a).session = sid) =
      l.filter fun a => (u a).session = sid := by
  induction l with
  | nil => rfl
  | cons a l ih =>
    by_cases ha : u a = owner
    · -- the first match is erased, and the share did not hold it
      have hsid : (u a).session ≠ sid := by rwa [ha]
      rw [List.eraseP_cons_of_pos (by simpa using ha),
        List.filter_cons_of_neg (by simpa using hsid)]
    · rw [List.eraseP_cons_of_neg (by simpa using ha), List.filter_cons, List.filter_cons, ih]

end Lookup

/-! ## Calls -/

section Calls

variable {p q : WorkerPool F} {sid : Nat}

/-- What the session awaits is in its share. -/
theorem result?_share (h : p.share sid = q.share sid) {owner : Owner}
    (howner : owner.session = sid) : p.result? owner = q.result? owner := by
  have hread : ∀ p : WorkerPool F, p.result? owner =
      ((p.share sid).resolved.find? fun r => r.1.owner = owner).map Prod.snd := by
    intro p
    have hfind := find?_filter_map (f := fun r : Job × Outcome F => (r.1.ask, r.2))
      (u := fun r => r.1.owner) (v := fun r => r.1.owner) (fun _ => rfl) howner p.resolved
    show _ = (List.find? _ (List.map _ _)).map Prod.snd
    rw [hfind, Option.map_map]
    rfl
  rw [hread p, hread q, h]

theorem call_share_other {k : PoolCall} (hk : k.session? ≠ some sid) :
    (p.call k).share sid = p.share sid := by
  have hne : ∀ owner : Owner, some owner.session ≠ some sid → owner.session ≠ sid :=
    fun owner h h' => h (congrArg some h')
  cases k with
  | cancel | forget => rfl
  | submit owner text voice =>
    have howner := hne owner hk
    simp [WorkerPool.share, WorkerPool.call, WorkerPool.submit, List.filter_append, howner]
  | collect owner =>
    have howner := hne owner hk
    have herase := filter_eraseP_other (u := fun r : Job × Outcome F => r.1.owner) howner
      p.resolved
    simp only [WorkerPool.share, WorkerPool.call, WorkerPool.collect]
    rw [herase]
  | abandon owner =>
    have howner := hne owner hk
    have hkeep : ∀ j : Job, (decide (j.owner.session = sid) && decide (j.owner ≠ owner)) =
        decide (j.owner.session = sid) := by
      intro j
      by_cases hj : j.owner = owner
      · simp [hj, howner]
      · simp [hj]
    simp only [WorkerPool.share, WorkerPool.call, WorkerPool.abandon, List.filter_filter, hkeep]

/-- A call does the same to the share in every pool. -/
theorem call_share (h : p.share sid = q.share sid) (k : PoolCall) :
    (p.call k).share sid = (q.call k).share sid := by
  by_cases hk : k.session? = some sid
  · have hparts : ∀ {s t : Share F}, s = t →
        s.queued = t.queued ∧ s.running = t.running ∧ s.resolved = t.resolved := by
      intro s t hst
      rw [hst]
      exact ⟨rfl, rfl, rfl⟩
    obtain ⟨hqueued, hrunning, hresolved⟩ := hparts h
    cases k with
    | cancel | forget => exact h
    | submit owner text voice =>
      -- the pools differ in the index and the worker, which the share leaves out
      obtain rfl : owner.session = sid := Option.some.inj hk
      simp only [WorkerPool.share] at hqueued hrunning hresolved
      simp only [WorkerPool.share, WorkerPool.call, WorkerPool.submit, List.filter_append,
        List.map_append, hqueued, hrunning, hresolved]
      simp [Job.ask]
    | collect owner =>
      obtain rfl : owner.session = sid := Option.some.inj hk
      have herase : ∀ p : WorkerPool F, ((p.collect owner).share owner.session).resolved =
          (p.share owner.session).resolved.eraseP fun r => r.1.owner = owner := by
        intro p
        exact (eraseP_filter_map (f := fun r : Job × Outcome F => (r.1.ask, r.2))
          (u := fun r => r.1.owner) (v := fun r => r.1.owner) (fun _ => rfl) rfl
          p.resolved).symm
      show (⟨(p.share _).queued, (p.share _).running, ((p.collect owner).share _).resolved⟩ :
        Share F) = ⟨(q.share _).queued, (q.share _).running, ((q.collect owner).share _).resolved⟩
      rw [herase p, herase q, h]
    | abandon owner =>
      obtain rfl : owner.session = sid := Option.some.inj hk
      have hdrop : ∀ p : WorkerPool F, ((p.abandon owner).share owner.session).queued =
          (p.share owner.session).queued.filter fun a => a.owner ≠ owner := by
        intro p
        simp only [WorkerPool.share, WorkerPool.abandon, List.filter_map, List.filter_filter,
          Function.comp_def, Job.ask]
        congr 2
        funext j
        exact Bool.and_comm _ _
      show (⟨((p.abandon owner).share _).queued, (p.share _).running, (p.share _).resolved⟩ :
        Share F) = ⟨((q.abandon owner).share _).queued, (q.share _).running, (q.share _).resolved⟩
      rw [hdrop p, hdrop q, h]
  · rw [call_share_other hk, call_share_other hk, h]

theorem calls_share_other {ks : List PoolCall} (hks : ∀ k ∈ ks, k.session? ≠ some sid) :
    (p.calls ks).share sid = p.share sid := by
  induction ks generalizing p with
  | nil => rfl
  | cons k ks ih =>
    rw [calls_cons, ih fun k' hk' => hks k' (List.mem_cons_of_mem _ hk'),
      call_share_other (hks k List.mem_cons_self)]

theorem calls_share (h : p.share sid = q.share sid) (ks : List PoolCall) :
    (p.calls ks).share sid = (q.calls ks).share sid := by
  induction ks generalizing p q with
  | nil => exact h
  | cons k ks ih => exact ih (call_share h k)

end Calls

@[simp] theorem calls_nWorkers (p : WorkerPool F) (ks : List PoolCall) :
    (p.calls ks).nWorkers = p.nWorkers := by
  induction ks generalizing p with
  | nil => rfl
  | cons k ks ih => rw [calls_cons, ih, call_nWorkers]

/-- Calls that no other session makes keep the pool to the session. -/
theorem calls_only {p : WorkerPool F} {sid : Nat} {ks : List PoolCall} (h : p.Only sid)
    (hks : ∀ k ∈ ks, k.session? = none ∨ k.session? = some sid) : (p.calls ks).Only sid := by
  induction ks generalizing p with
  | nil => exact h
  | cons k ks ih =>
    refine ih ?_ fun k' hk' => hks k' (List.mem_cons_of_mem _ hk')
    have hk := hks k List.mem_cons_self
    intro j hj
    simp only [WorkerPool.jobs, List.mem_append] at hj
    have hjobs : ∀ j, (j ∈ p.queued ∨ j ∈ p.running) ∨ j ∈ p.resolved.map Prod.fst →
        j.owner.session = sid := by
      intro j hj
      refine h j ?_
      simpa only [WorkerPool.jobs, List.mem_append] using hj
    cases k with
    | cancel | forget => exact hjobs j hj
    | submit owner text voice =>
      rcases hj with (hj | hj) | hj
      · rcases List.mem_append.mp hj with hj | hj
        · exact hjobs j (Or.inl (Or.inl hj))
        · rw [List.mem_singleton.mp hj]
          rcases hk with hk | hk
          · exact absurd hk (by simp [PoolCall.session?])
          · exact Option.some.inj hk
      · exact hjobs j (Or.inl (Or.inr hj))
      · exact hjobs j (Or.inr hj)
    | collect owner =>
      refine hjobs j (hj.imp_right fun hj => ?_)
      obtain ⟨r, hr, rfl⟩ := List.mem_map.mp hj
      exact List.mem_map.mpr ⟨r, List.mem_of_mem_eraseP hr, rfl⟩
    | abandon owner => exact hjobs j (hj.imp_left fun hj => hj.imp_left List.mem_of_mem_filter)

/-! ## The executor -/

section Exec

variable {p p' q : WorkerPool F} {sid : Nat} {e : ExecAct F}

theorem exec_only (h : p.Only sid) (hp : p.exec e = some p') : p'.Only sid :=
  fun j hj => h j ((exec_jobs_perm hp).subset hj)

/-- A job of another session moves past the share. -/
theorem exec_share_other (hp : p.exec e = some p') (he : e.owner.session ≠ sid) :
    p'.share sid = p.share sid := by
  rcases exec_cases hp with ⟨owner, j, rest, rfl, hq, rfl, -, rfl⟩ |
    ⟨owner, o, j, rfl, -, rfl, -, rfl⟩
  · have hj : ¬ j.owner.session = sid := he
    simp [WorkerPool.share, hq, List.filter_append, hj]
  · have hj : ¬ j.owner.session = sid := he
    have herase : (p.running.eraseP fun i => i.owner = j.owner).filter
        (fun i => i.owner.session = sid) = p.running.filter fun i => i.owner.session = sid :=
      filter_eraseP_other he p.running
    simp only [WorkerPool.share]
    rw [herase]
    simp [List.filter_append, hj]

theorem Only.filter (h : q.Only sid) :
    q.queued.filter (fun j => j.owner.session = sid) = q.queued ∧
      q.running.filter (fun j => j.owner.session = sid) = q.running := by
  refine ⟨List.filter_eq_self.mpr fun j hj => ?_, List.filter_eq_self.mpr fun j hj => ?_⟩
  · exact decide_eq_true (h j (List.mem_append_left _ (List.mem_append_left _ hj)))
  · exact decide_eq_true (h j (List.mem_append_left _ (List.mem_append_right _ hj)))

/-- What the executor does to a job of the session, it can do in a pool that holds nothing
but the same share: the front of the queue is still the front, and a thread that is free
among more jobs is free. -/
theorem exec_share (hp : p.exec e = some p') (he : e.owner.session = sid)
    (hn : p.nWorkers = q.nWorkers) (h : p.share sid = q.share sid) (honly : q.Only sid) :
    ∃ q', q.exec e = some q' ∧ p'.share sid = q'.share sid := by
  obtain ⟨hqueued, hrunning⟩ := Only.filter honly
  simp only [WorkerPool.share, Share.mk.injEq, hqueued, hrunning] at h
  obtain ⟨hq, hr, hd⟩ := h
  rcases exec_cases hp with ⟨owner, j, rest, rfl, hpq, rfl, hfree, rfl⟩ |
    ⟨owner, o, j, rfl, -, rfl, hfind, rfl⟩
  · -- the front of the queue is the session's, so it is the front of the share
    have hj : j.owner.session = sid := he
    rw [hpq, List.filter_cons_of_pos (by simpa using hj), List.map_cons] at hq
    obtain ⟨j', rest', hqq, hask, hrest⟩ := List.map_eq_cons_iff.mp hq.symm
    have howner : j'.owner = j.owner := congrArg Ask.owner hask
    -- no more jobs run here than in the other pool, where a thread is free
    have hlen : q.running.length < q.nWorkers := by
      have hcount := congrArg List.length hr
      simp only [List.length_map] at hcount
      have hfilter :=
        List.length_filter_le (fun i : Job => decide (i.owner.session = sid)) p.running
      rw [← hn]
      omega
    refine ⟨{ q with queued := rest', running := q.running ++ [j'] }, ?_, ?_⟩
    · simp only [WorkerPool.exec, hqq]
      rw [if_pos ⟨howner, hlen⟩]
    · have hrest_only : rest'.filter (fun i => i.owner.session = sid) = rest' := by
        rw [hqq, List.filter_cons_of_pos (by simpa [howner] using hj)] at hqueued
        exact List.cons.inj hqueued |>.2
      simp only [WorkerPool.share, Share.mk.injEq, List.filter_append, List.map_append]
      refine ⟨?_, ?_, hd⟩
      · rw [hrest_only, hrest]
      · rw [hr, hrunning]
        simp [hj, howner, hask]
  · -- the running job is found by its owner in either pool
    have hj : j.owner.session = sid := he
    have hfind' := find?_filter_map (f := Job.ask) (u := Job.owner) (v := Ask.owner)
      (fun _ => rfl) hj p.running
    rw [hfind, hr, List.find?_map] at hfind'
    obtain ⟨j', hj', hask⟩ := Option.map_eq_some_iff.mp hfind'
    have howner : j'.owner = j.owner := congrArg Ask.owner hask
    refine ⟨{ q with running := q.running.eraseP (fun i => i.owner = j.owner)
                     resolved := q.resolved ++ [(j', o)] }, ?_, ?_⟩
    · replace hj' : q.running.find? (fun i => i.owner = j.owner) = some j' := hj'
      simp only [WorkerPool.exec, hj']
    · have herase : ∀ l : List Job, ((l.eraseP fun i => i.owner = j.owner).filter
          fun i => i.owner.session = sid).map Job.ask =
          ((l.filter fun i => i.owner.session = sid).map Job.ask).eraseP
            fun a => a.owner = j.owner :=
        fun l => (eraseP_filter_map (f := Job.ask) (u := Job.owner) (v := Ask.owner)
          (fun _ => rfl) hj l).symm
      simp only [WorkerPool.share, Share.mk.injEq, List.filter_append, List.map_append]
      refine ⟨by rw [hq, hqueued], ?_, ?_⟩
      · rw [herase, herase, hr, hrunning]
      · rw [hd]
        simp [hj, howner, hask]

end Exec

end SupertonicServer.Pool
