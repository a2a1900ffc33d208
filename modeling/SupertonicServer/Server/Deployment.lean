import SupertonicServer.Pool.Exclusive
import SupertonicServer.Server.Results
import SupertonicServer.Worker.Start

/-!
# The server with its workers

So far a job ended with whatever outcome the environment chose. Here it ends with the outcome
of its call: every running job is a call of `synthesize` on its thread (`CallPc`), on the
worker it was assigned, and the threads take their steps in any order, between any steps of
the sessions. Two of them may be on one worker.

A run of this system is a run of the server (`run_server`), so all that holds of servers holds
here. What is new is where the outcomes come from: as long as no two calls meet in the model of
a worker (`Deployment.Apart`), each is one with which a call of its own could have ended, for
its own text and voice, on a worker that no one else uses and that keeps no styles
(`outcomes_own`). They do not meet if no job is started on a worker whose last one is still
running (`apart_of_clear`).

`ended` is the history of the calls that have ended; no step reads it.
-/

namespace SupertonicServer

open Coalescer (Chunk)
open Audio (AudioOps)
open Pool
open Worker
open Lib (StepsMeet run run_trans run_inv)

variable {S F : Type}

structure Deployment (S F : Type) where
  server : Server F
  workers : List (SupertonicWorker S)
  /-- the call of the job with this index -/
  threads : Nat → CallPc S F
  ended : List (Job × Outcome F)

/-- A pool whose `start` has built these workers. -/
def Deployment.init (F : Type) (n : ℕ+) (workers : List (SupertonicWorker S)) : Deployment S F :=
  { server := Server.init F n, workers := workers, threads := fun _ => .called, ended := [] }

inductive DeployAct (S F : Type) where
  | sess (sid : Nat) (a : Action)
  /-- a free thread takes the job at the front of the queue -/
  | start (owner : Owner)
  /-- the thread with this job goes on by one operation -/
  | thread (idx : Nat) (world : World S F)
  /-- a call has ended, and its future is resolved -/
  | finish (owner : Owner)

/-- A step of the server. -/
def Deployment.act (ops : AudioOps F) (d : Deployment S F) (a : ServerAct F) :
    Option (Deployment S F) :=
  (d.server.step ops a).map fun s => { d with server := s }

/-- The outcome of a call that has ended. -/
def Worker.CallPc.outcome? : CallPc S F → Option (Outcome F)
  | .ended outcome => some outcome
  | _ => none

/-- The running job with this index. -/
def Deployment.job? (d : Deployment S F) (idx : Nat) : Option Job :=
  d.server.pool.running.find? fun j => j.idx = idx

/-- The call of a job has come to this point and left its worker so. -/
def Deployment.moved (d : Deployment S F) (j : Job) (st : CallPc S F × SupertonicWorker S) :
    Deployment S F :=
  { d with
    workers := d.workers.set j.worker st.2
    threads := Function.update d.threads j.idx st.1
    ended := d.ended ++ st.1.outcome?.toList.map fun outcome => (j, outcome) }

/-- The call of a job goes on. -/
def Deployment.goOn (cfg : Config) (d : Deployment S F) (idx : Nat) (world : World S F) :
    Option (Deployment S F) :=
  match d.job? idx with
  | none => none
  | some j =>
    match d.workers[j.worker]? with
    | none => none
    | some w =>
      (CallPc.step cfg j.text j.voiceName (d.threads idx, w) world).map (d.moved j)

def Deployment.step (ops : AudioOps F) (cfg : Config) (d : Deployment S F) :
    DeployAct S F → Option (Deployment S F)
  | .sess sid a => d.act ops (.sess sid a)
  | .start owner => d.act ops (.exec (.start owner))
  | .thread idx world => d.goOn cfg idx world
  | .finish owner =>
    match d.server.pool.running.find? fun j => j.owner = owner with
    | none => none
    | some j =>
      match (d.threads j.idx).outcome? with
      | none => none
      | some outcome => d.act ops (.exec (.finish owner outcome))

/-- The worlds of the calls are among these. -/
def DeployAct.Within (Worlds : World S F → Prop) : DeployAct S F → Prop
  | .thread _ world => Worlds world
  | _ => True

/-- A thread that goes into the model of its worker finds nobody there. -/
def Deployment.Apart (d : Deployment S F) : DeployAct S F → Prop
  | .thread idx _ => ∀ j ∈ d.job? idx, ∀ w ∈ d.workers[j.worker]?,
      (d.threads idx).enters = true → w.tts.calls = 0
  | _ => True

instance (d : Deployment S F) : ∀ a, Decidable (d.Apart a)
  | .thread idx _ => inferInstanceAs (Decidable (∀ j ∈ d.job? idx, ∀ w ∈ d.workers[j.worker]?,
      (d.threads idx).enters = true → w.tts.calls = 0))
  | .sess _ _ => isTrue trivial
  | .start _ => isTrue trivial
  | .finish _ => isTrue trivial

variable {ops : AudioOps F} {cfg : Config} {Worlds : World S F → Prop}

theorem job?_mem {d : Deployment S F} {idx : Nat} {j : Job} (h : d.job? idx = some j) :
    j ∈ d.server.pool.running ∧ j.idx = idx :=
  ⟨List.mem_of_find?_eq_some h, by simpa using List.find?_some h⟩

/-- A step of a call, written out. -/
theorem goOn_cases {d d' : Deployment S F} {idx : Nat} {world : World S F}
    (h : d.goOn cfg idx world = some d') :
    ∃ j w st, (j ∈ d.server.pool.running ∧ j.idx = idx) ∧ d.workers[j.worker]? = some w ∧
      CallPc.step cfg j.text j.voiceName (d.threads j.idx, w) world = some st ∧
      d' = d.moved j st := by
  unfold Deployment.goOn at h
  split at h
  next => exact absurd h (by simp)
  next j hj =>
    split at h
    next => exact absurd h (by simp)
    next w hw =>
      obtain ⟨st, hst, rfl⟩ := Option.map_eq_some_iff.mp h
      obtain ⟨hrunning, rfl⟩ := job?_mem hj
      exact ⟨j, w, st, ⟨hrunning, rfl⟩, hw, hst, rfl⟩

/-- The step of the server that an action is. -/
inductive Deployment.Does (d : Deployment S F) : DeployAct S F → ServerAct F → Prop where
  | sess (sid : Nat) (a : Action) : d.Does (.sess sid a) (.sess sid a)
  | start (owner : Owner) : d.Does (.start owner) (.exec (.start owner))
  /-- a job that is finished is one whose call has ended -/
  | finish (owner : Owner) (outcome : Outcome F) (j : Job)
      (hj : d.server.pool.running.find? (fun j => j.owner = owner) = some j)
      (hended : d.threads j.idx = .ended outcome) :
      d.Does (.finish owner) (.exec (.finish owner outcome))

/-- A call that has an outcome has ended with it. -/
theorem ended_of_outcome {pc : CallPc S F} {outcome : Outcome F}
    (h : pc.outcome? = some outcome) : pc = .ended outcome := by
  cases pc with
  | ended o => rw [Option.some.inj h]
  | _ => exact absurd h (by simp [CallPc.outcome?])

/-- A step, written out: one of the server, or one of a call. -/
theorem deploy_cases {d d' : Deployment S F} {a : DeployAct S F}
    (h : d.step ops cfg a = some d') :
    (∃ b s, d.Does a b ∧ d.server.step ops b = some s ∧ d' = { d with server := s }) ∨
    (∃ world j w st, a = .thread j.idx world ∧ j ∈ d.server.pool.running ∧
      d.workers[j.worker]? = some w ∧
      CallPc.step cfg j.text j.voiceName (d.threads j.idx, w) world = some st ∧
      d' = d.moved j st) := by
  cases a with
  | sess sid act =>
    obtain ⟨s, hs, rfl⟩ := Option.map_eq_some_iff.mp h
    exact Or.inl ⟨.sess sid act, s, .sess sid act, hs, rfl⟩
  | start owner =>
    obtain ⟨s, hs, rfl⟩ := Option.map_eq_some_iff.mp h
    exact Or.inl ⟨.exec (.start owner), s, .start owner, hs, rfl⟩
  | thread idx world =>
    obtain ⟨j, w, st, ⟨hj, rfl⟩, hw, hst, rfl⟩ := goOn_cases h
    exact Or.inr ⟨world, j, w, st, rfl, hj, hw, hst, rfl⟩
  | finish owner =>
    simp only [Deployment.step] at h
    split at h
    next => exact absurd h (by simp)
    next j hj =>
      split at h
      next => exact absurd h (by simp)
      next outcome houtcome =>
        obtain ⟨s, hs, rfl⟩ := Option.map_eq_some_iff.mp h
        exact Or.inl ⟨.exec (.finish owner outcome), s,
          .finish owner outcome j hj (ended_of_outcome houtcome), hs, rfl⟩

/-- **The server in a deployment** goes through a run of its own. -/
theorem run_server {n : ℕ+} {workers : List (SupertonicWorker S)} {acts : List (DeployAct S F)}
    {d : Deployment S F}
    (hrun : run (Deployment.step ops cfg) (Deployment.init F n workers) acts = some d) :
    ∃ sacts, run (Server.step ops) (Server.init F n) sacts = some d.server := by
  refine run_inv (I := fun d : Deployment S F =>
    ∃ sacts, run (Server.step ops) (Server.init F n) sacts = some d.server) ?_ ⟨[], rfl⟩ hrun
  intro d a d' h hstep
  obtain ⟨sacts, hs⟩ := h
  rcases deploy_cases hstep with ⟨b, s, -, hb, rfl⟩ | ⟨_, _, _, _, _, _, _, _, rfl⟩
  · refine ⟨sacts ++ [b], run_trans hs ?_⟩
    rw [Lib.run_singleton]
    exact hb
  · exact ⟨sacts, hs⟩

/-! ## Indices -/

theorem calls_fifoInv {p : WorkerPool F} (h : FifoInv p) (ks : List PoolCall) :
    FifoInv (p.calls ks) := by
  induction ks generalizing p with
  | nil => exact h
  | cons k ks ih => exact ih (call_fifoInv h k)

@[simp] theorem calls_running (p : WorkerPool F) (ks : List PoolCall) :
    (p.calls ks).running = p.running := by
  induction ks generalizing p with
  | nil => rfl
  | cons k ks ih => rw [calls_cons, ih, call_running]

/-- Calls hand out new indices and keep the old ones. -/
theorem calls_indices (p : WorkerPool F) (ks : List PoolCall) :
    p.nextWorkerIdx ≤ (p.calls ks).nextWorkerIdx ∧
    ∀ j ∈ (p.calls ks).queued, j ∈ p.queued ∨ p.nextWorkerIdx ≤ j.idx := by
  induction ks generalizing p with
  | nil => exact ⟨Nat.le_refl _, fun j hj => Or.inl hj⟩
  | cons k ks ih =>
    obtain ⟨hnext, hqueued⟩ := ih (p.call k)
    have hcall : p.nextWorkerIdx ≤ (p.call k).nextWorkerIdx ∧
        ∀ j ∈ (p.call k).queued, j ∈ p.queued ∨ p.nextWorkerIdx ≤ j.idx := by
      cases k with
      | submit owner text voice =>
        refine ⟨Nat.le_succ _, fun j hj => ?_⟩
        rcases List.mem_append.mp hj with hj | hj
        · exact Or.inl hj
        · rw [List.mem_singleton.mp hj]
          exact Or.inr (Nat.le_refl _)
      | abandon owner => exact ⟨Nat.le_refl _, fun j hj => Or.inl (List.mem_of_mem_filter hj)⟩
      | cancel | forget | collect => exact ⟨Nat.le_refl _, fun j hj => Or.inl hj⟩
    refine ⟨Nat.le_trans hcall.1 hnext, fun j hj => ?_⟩
    rcases hqueued j hj with hj | hj
    · exact hcall.2 j hj
    · exact Or.inr (Nat.le_trans hcall.1 hj)

/-- What the calls of a deployment and its pool know of each other. -/
structure Indexed (p : WorkerPool F) (threads : Nat → CallPc S F) : Prop where
  fifo : FifoInv p
  distinct : (p.running.map Job.idx).Nodup
  waiting : ∀ j ∈ p.queued, threads j.idx = .called
  unused : ∀ i, p.nextWorkerIdx ≤ i → threads i = .called

theorem init_indexed (n : ℕ+) : Indexed (S := S) (WorkerPool.started F n) fun _ => .called where
  fifo := started_fifoInv n
  distinct := List.nodup_nil
  waiting _ _ := rfl
  unused _ _ := rfl

theorem Indexed.calls {p : WorkerPool F} {threads : Nat → CallPc S F} (h : Indexed p threads)
    (ks : List PoolCall) : Indexed (p.calls ks) threads := by
  obtain ⟨hnext, hqueued⟩ := calls_indices p ks
  refine ⟨calls_fifoInv h.fifo ks, ?_, ?_, fun i hi => h.unused i (Nat.le_trans hnext hi)⟩
  · rw [calls_running]
    exact h.distinct
  · intro j hj
    rcases hqueued j hj with hj | hj
    · exact h.waiting j hj
    · exact h.unused j.idx hj

theorem Indexed.exec {p q : WorkerPool F} {threads : Nat → CallPc S F} (h : Indexed p threads)
    {e : ExecAct F} (hq : p.exec e = some q) : Indexed q threads := by
  refine ⟨exec_fifoInv h.fifo hq, ?_, ?_, ?_⟩
  · rcases exec_cases hq with ⟨_, j, rest, -, hqueue, -, -, rfl⟩ | ⟨_, _, _, -, -, -, -, rfl⟩
    · -- the job that starts is younger than all that run
      show ((p.running ++ [j]).map Job.idx).Nodup
      rw [List.map_append, List.map_singleton, List.nodup_append]
      refine ⟨h.distinct, List.nodup_singleton _, ?_⟩
      intro a ha b hb
      obtain ⟨i, hi, rfl⟩ := List.mem_map.mp ha
      rw [List.mem_singleton.mp hb]
      exact Nat.ne_of_lt (h.fifo.older i hi j (by rw [hqueue]; exact List.mem_cons_self))
    · exact h.distinct.sublist (List.eraseP_sublist.map Job.idx)
  · rcases exec_cases hq with ⟨_, j, rest, -, hqueue, -, -, rfl⟩ | ⟨_, _, _, -, -, -, -, rfl⟩
    · intro i hi
      exact h.waiting i (by rw [hqueue]; exact List.mem_cons_of_mem j hi)
    · exact h.waiting
  · rcases exec_cases hq with ⟨_, _, _, -, -, -, -, rfl⟩ | ⟨_, _, _, -, -, -, -, rfl⟩
    · exact h.unused
    · exact h.unused

/-- A call that goes on belongs to a running job, so to none that waits. -/
theorem Indexed.thread {p : WorkerPool F} {threads : Nat → CallPc S F} (h : Indexed p threads)
    {j : Job} (hj : j ∈ p.running) (pc : CallPc S F) :
    Indexed p (Function.update threads j.idx pc) := by
  refine ⟨h.fifo, h.distinct, ?_, ?_⟩
  · intro i hi
    rw [Function.update_of_ne (Nat.ne_of_gt (h.fifo.older j hj i hi))]
    exact h.waiting i hi
  · intro i hi
    have hlt := h.fifo.running_lt j hj
    rw [Function.update_of_ne (by omega)]
    exact h.unused i hi

/-- A running job is determined by its index. -/
theorem Indexed.job_eq {p : WorkerPool F} {threads : Nat → CallPc S F} (h : Indexed p threads)
    {i j : Job} (hi : i ∈ p.running) (hj : j ∈ p.running) (hidx : i.idx = j.idx) : i = j :=
  List.inj_on_of_nodup_map h.distinct hi hj hidx

/-- A running job is found by its index. -/
theorem Indexed.job? {d : Deployment S F} (h : Indexed d.server.pool d.threads) {j : Job}
    (hj : j ∈ d.server.pool.running) : d.job? j.idx = some j := by
  cases hfind : d.job? j.idx with
  | none =>
    have hno := List.find?_eq_none.mp hfind j hj
    simp at hno
  | some k =>
    obtain ⟨hk, hidx⟩ := job?_mem hfind
    rw [h.job_eq hk hj hidx]

/-! ## Where the outcomes come from -/

structure Deployment.Faithful (cfg : Config) (Worlds : World S F → Prop) (d : Deployment S F) :
    Prop where
  sound : d.server.Sound
  results : d.server.Results (Answers cfg Worlds)
  indexed : Indexed d.server.pool d.threads
  workers : ∀ w ∈ d.workers, Kept cfg Worlds w
  calls : ∀ j ∈ d.server.pool.running, CallOk cfg Worlds j.text j.voiceName (d.threads j.idx)

theorem init_faithful (n : ℕ+) {workers : List (SupertonicWorker S)}
    (hworkers : ∀ w ∈ workers, Kept cfg Worlds w) :
    (Deployment.init F n workers).Faithful cfg Worlds where
  sound := init_sound n
  results := init_results n
  indexed := init_indexed n
  workers := hworkers
  calls _ hj := absurd hj List.not_mem_nil

/-- A running job comes out of the queue, if it was not running before. -/
theorem step_running {s s' : Server F} {b : ServerAct F} (hstep : s.step ops b = some s')
    {j : Job} (hj : j ∈ s'.pool.running) : j ∈ s.pool.running ∨ j ∈ s.pool.queued := by
  rcases server_step_cases hstep with ⟨sid, act, r, -, -, rfl⟩ | ⟨e, p, -, hp, rfl⟩
  · exact Or.inl (by simpa using hj)
  · rcases exec_cases hp with ⟨_, i, rest, -, hqueue, -, -, rfl⟩ | ⟨_, _, _, -, -, -, -, rfl⟩
    · rcases List.mem_append.mp hj with hj | hj
      · exact Or.inl hj
      · rw [List.mem_singleton.mp hj, hqueue]
        exact Or.inr List.mem_cons_self
    · exact Or.inl (List.mem_of_mem_eraseP hj)

theorem server_step_nWorkers {s s' : Server F} {b : ServerAct F} (hstep : s.step ops b = some s') :
    s'.pool.nWorkers = s.pool.nWorkers := by
  rcases server_step_cases hstep with ⟨sid, act, r, -, -, rfl⟩ | ⟨e, p, -, hp, rfl⟩
  · exact calls_nWorkers _ _
  · exact exec_nWorkers hp

theorem step_indexed {s s' : Server F} {b : ServerAct F} {threads : Nat → CallPc S F}
    (h : Indexed s.pool threads) (hstep : s.step ops b = some s') : Indexed s'.pool threads := by
  rcases server_step_cases hstep with ⟨sid, act, r, -, -, rfl⟩ | ⟨e, p, -, hp, rfl⟩
  · exact h.calls r.2
  · exact h.exec hp

theorem step_faithful {d d' : Deployment S F} {a : DeployAct S F}
    (h : d.Faithful cfg Worlds) (hin : a.Within Worlds) (hapart : d.Apart a)
    (hstep : d.step ops cfg a = some d') : d'.Faithful cfg Worlds := by
  rcases deploy_cases hstep with ⟨b, s, hdoes, hb, rfl⟩ |
    ⟨world, j, w, st, rfl, hrunning, hw, hst, rfl⟩
  · have hmeets : JobsMeet (Answers cfg Worlds) d.server b := by
      cases hdoes with
      | sess | start => trivial
      | finish owner outcome j hj hended =>
        intro i hi
        obtain rfl : j = i := Option.some.inj (hj.symm.trans hi)
        have hcall := h.calls j (List.mem_of_find?_eq_some hj)
        rw [hended] at hcall
        exact hcall
    refine ⟨step_sound h.sound hb, step_results h.sound h.results hmeets hb,
      step_indexed h.indexed hb, h.workers, ?_⟩
    intro j hj
    rcases step_running hb hj with hj | hj
    · exact h.calls j hj
    · rw [h.indexed.waiting j hj]
      trivial
  · have henter : (d.threads j.idx).enters = true → w.tts.calls = 0 :=
      hapart j (h.indexed.job? hrunning) w hw
    obtain ⟨hw', hpc'⟩ := step_callOk hin (h.workers w (List.mem_of_getElem? hw))
      (h.calls j hrunning) henter hst
    refine ⟨h.sound, h.results, h.indexed.thread hrunning st.1, ?_, ?_⟩
    · intro w' hmem
      rcases List.mem_or_eq_of_mem_set hmem with hmem | rfl
      · exact h.workers w' hmem
      · exact hw'
    · intro i hi
      show CallOk cfg Worlds i.text i.voiceName (Function.update d.threads j.idx st.1 i.idx)
      by_cases hidx : i.idx = j.idx
      · obtain rfl := h.indexed.job_eq hi hrunning hidx
        rw [Function.update_self]
        exact hpc'
      · rw [Function.update_of_ne hidx]
        exact h.calls i hi

theorem run_faithful {n : ℕ+} {workers : List (SupertonicWorker S)}
    (hworkers : ∀ w ∈ workers, Kept cfg Worlds w) {acts : List (DeployAct S F)}
    (hin : ∀ a ∈ acts, a.Within Worlds)
    (hapart : StepsMeet (Deployment.step ops cfg) Deployment.Apart
      (Deployment.init F n workers) acts) {d : Deployment S F}
    (hrun : run (Deployment.step ops cfg) (Deployment.init F n workers) acts = some d) :
    d.Faithful cfg Worlds := by
  have hmeets : StepsMeet (Deployment.step ops cfg)
      (fun d a => DeployAct.Within Worlds a ∧ Deployment.Apart d a)
      (Deployment.init F n workers) acts := by
    intro pre a post s s' hsplit hpre hstep
    exact ⟨hin a (by rw [hsplit]; simp), hapart pre a post s s' hsplit hpre hstep⟩
  exact Lib.run_inv_of (fun _ _ _ h hP hs => step_faithful h hP.1 hP.2 hs) hmeets
    (init_faithful n hworkers) hrun

/-- What the tasks have taken from the pool, by the voice of the first text frame. -/
theorem Deployment.Faithful.answers {d : Deployment S F} (h : d.Faithful cfg Worlds) {sid : Nat}
    {c : String} {chunk : Chunk} {outcome : Outcome F}
    (hmem : (chunk, outcome) ∈ syntheses (ofContext c (d.server.sessions sid).trace)) :
    ∃ first, (texts (ofContext c (d.server.sessions sid).trace)).head? = some first ∧
      Answers cfg Worlds chunk first.voice.id outcome := by
  obtain ⟨e, he, -⟩ := List.mem_filterMap.mp hmem
  obtain ⟨hetrace, hec⟩ := mem_ofContext.mp he
  have hne := (h.sound.wf.sessions sid).trace e hetrace c hec
  obtain ⟨ctx, hctx⟩ := Option.ne_none_iff_exists'.mp hne
  obtain ⟨first, hfirst, hid⟩ := (h.results.sessions sid).voice c ctx hctx
  have hanswer : Answers cfg Worlds chunk ctx.voiceId outcome :=
    (h.results.sessions sid).outcomes c ctx hctx _ hmem
  rw [hid] at hanswer
  exact ⟨first, hfirst, hanswer⟩

/-- **Every outcome is one of its own call**: in every run of a deployment in which no thread goes
into the model of a worker while another is there, whatever else shares the workers and however
the threads interleave, what an emit task took from the pool is an outcome with which a call for
its own chunk could have ended that had a worker to itself and no cache: in the voice that the
first text frame of the context named, with a style that was loaded for that voice. -/
theorem outcomes_own {n : ℕ+} {workers : List (SupertonicWorker S)}
    (hworkers : ∀ w ∈ workers, Kept cfg Worlds w) {acts : List (DeployAct S F)}
    (hin : ∀ a ∈ acts, a.Within Worlds)
    (hapart : StepsMeet (Deployment.step ops cfg) Deployment.Apart
      (Deployment.init F n workers) acts) {d : Deployment S F}
    (hrun : run (Deployment.step ops cfg) (Deployment.init F n workers) acts = some d)
    {sid : Nat} {c : String} {chunk : Chunk} {outcome : Outcome F}
    (hmem : .synthesized c chunk outcome ∈ (d.server.sessions sid).trace) :
    ∃ first, (texts (ofContext c (d.server.sessions sid).trace)).head? = some first ∧
      Answers cfg Worlds chunk first.voice.id outcome := by
  have hown : .synthesized c chunk outcome ∈ ofContext c (d.server.sessions sid).trace :=
    mem_ofContext.mpr ⟨hmem, rfl⟩
  exact (run_faithful hworkers hin hapart hrun).answers
    (List.mem_filterMap.mpr ⟨_, hown, rfl⟩)

/-- The one utterance of session 0, on two workers that know one voice; the voice was loaded
when they were warmed up, so its call makes five steps. -/
def deployedRun : List (DeployAct Unit Unit) :=
  oneChunkRun.flatMap fun
    | .sess a => [.sess 0 a]
    | .exec (.start owner) => [.start owner]
    | .exec (.finish owner _) => List.replicate 5 (.thread 0 oneVoice) ++ [.finish owner]

theorem deployedRun_within : ∀ a ∈ deployedRun, a.Within (· = oneVoice) := by
  simp [deployedRun, oneChunkRun, DeployAct.Within]

theorem deployedRun_apart : StepsMeet (Deployment.step silentOps defaultConfig) Deployment.Apart
    (Deployment.init Unit 2 oneVoiceWorkers) deployedRun := by
  decide +kernel

theorem deployedRun_trace : ∃ d,
    run (Deployment.step silentOps defaultConfig) (Deployment.init Unit 2 oneVoiceWorkers)
      deployedRun = some d ∧
    (d.server.sessions 0).trace = .textHandled (textOfX "Hi." false 50) :: oneChunkEvents := by
  obtain ⟨d, hrun⟩ := Option.isSome_iff_exists.mp
    (show (run (Deployment.step silentOps defaultConfig) (Deployment.init Unit 2 oneVoiceWorkers)
      deployedRun).isSome = true by decide +kernel)
  have htrace := Lib.run_reads (f := fun d => (d.server.sessions 0).trace)
    (b := .textHandled (textOfX "Hi." false 50) :: oneChunkEvents) hrun (by decide +kernel)
  exact ⟨d, hrun, htrace⟩

theorem outcomes_own_one_voice : ∃ d,
    run (Deployment.step silentOps defaultConfig) (Deployment.init Unit 2 oneVoiceWorkers)
      deployedRun = some d ∧
    ∃ first, (texts (ofContext "x" (d.server.sessions 0).trace)).head? = some first ∧
      Answers defaultConfig (· = oneVoice) "Hi.".toList first.voice.id oneSample := by
  obtain ⟨d, hrun, htrace⟩ := deployedRun_trace
  have hmem : .synthesized "x" "Hi.".toList oneSample ∈ (d.server.sessions 0).trace := by
    rw [htrace]
    simp [oneChunkEvents]
  exact ⟨d, hrun,
    outcomes_own oneVoiceWorkers_kept deployedRun_within deployedRun_apart hrun hmem⟩

end SupertonicServer
