import SupertonicServer.Lib.Settle
import SupertonicServer.Server.Close
import SupertonicServer.Server.OwnIds
import SupertonicServer.Session.Output

/-!
# A server at rest

The inner steps of the server are all but a frame from a client and the end of a connection:
the environment only has to end the sends and the syntheses it was given. Where no inner step
is left the server is at rest: nothing is in the pool, every receive loop waits for its client
or has returned from `close`, and every emit task waits at an empty queue or has finished.
Nothing is stuck in between, because a task that awaits a result has its job in the pool.
-/

namespace SupertonicServer

open Audio (AudioOps)
open Pool
open Lib (run Settled)

variable {F : Type} {ops : AudioOps F}

/-- The steps that take no new input from a client. -/
def ServerAct.Inner : ServerAct F → Prop
  | .sess _ (.handle _) => False
  | .sess _ .disconnect => False
  | _ => True

/-! ## Tasks and their jobs -/

/-- Every task of the session has in the pool the job it waits for, and no other. -/
structure Session.JobsIn (p : WorkerPool F) (sid : Nat) (s : Session F) : Prop where
  idle : ∀ c, s.objs c = none → p.jobsOf ⟨sid, c⟩ = []
  jobs : ∀ c ctx, s.objs c = some ctx → TaskJobs ctx (p.jobsOf ⟨sid, c⟩)

def Server.InStep (s : Server F) : Prop := ∀ sid, (s.sessions sid).JobsIn s.pool sid

theorem init_inStep (n : ℕ+) : (Server.init F n).InStep := fun _ =>
  { idle := fun _ _ => rfl
    jobs := fun c ctx h => absurd h (by simp [Server.init, Session.init]) }

theorem TaskJobs.perm {ctx : Context} {jobs jobs' : List Job} (h : TaskJobs ctx jobs)
    (hperm : jobs'.Perm jobs) : TaskJobs ctx jobs' := by
  unfold TaskJobs at h ⊢
  split at h
  next chunk hemit =>
    obtain ⟨j, hj, hjob⟩ := h
    rw [hj] at hperm
    exact ⟨j, List.perm_singleton.mp hperm, hjob⟩
  next => trivial
  next =>
    rw [h] at hperm
    exact hperm.eq_nil

section JobsIn

variable {p : WorkerPool F} {sid : Nat} {s s' : Session F} {calls : List PoolCall}

/-- The executor moves jobs about. -/
theorem Session.JobsIn.exec (h : s.JobsIn p sid) {e : ExecAct F} {q : WorkerPool F}
    (hq : p.exec e = some q) : s.JobsIn q sid where
  idle c hc := by
    have hperm := exec_jobsOf_perm hq ⟨sid, c⟩
    rw [h.idle c hc] at hperm
    exact hperm.eq_nil
  jobs c ctx hctx := (h.jobs c ctx hctx).perm (exec_jobsOf_perm hq ⟨sid, c⟩)

/-- Another session calls for a context of its own. -/
theorem Session.JobsIn.other (h : s.JobsIn p sid) {sid' : Nat} (hne : sid' ≠ sid) {c : String}
    (hcalls : ∀ k ∈ calls, k.Concerns sid' c) : s.JobsIn (p.calls calls) sid := by
  have hsame : ∀ d, (p.calls calls).jobsOf ⟨sid, d⟩ = p.jobsOf ⟨sid, d⟩ := by
    intro d
    apply calls_jobsOf_ne hcalls
    intro heq
    exact hne (Owner.mk.inj heq).1.symm
  constructor
  · intro d hd
    rw [hsame]
    exact h.idle d hd
  · intro d ctx hctx
    rw [hsame]
    exact h.jobs d ctx hctx

/-- One context changes, or is born. -/
theorem Session.JobsIn.update (h : s.JobsIn p sid) {c : String} {ctx : Context}
    (hobjs : s'.objs = Function.update s.objs c (some ctx))
    (hcalls : ∀ k ∈ calls, k.Concerns sid c)
    (hjobs : TaskJobs ctx ((p.calls calls).jobsOf ⟨sid, c⟩)) :
    s'.JobsIn (p.calls calls) sid where
  idle d hd := by
    rw [hobjs] at hd
    by_cases hdc : d = c
    · rw [hdc, Function.update_self] at hd
      exact absurd hd (by simp)
    · rw [Function.update_of_ne hdc] at hd
      rw [calls_jobsOf_ne hcalls (by simp [hdc])]
      exact h.idle d hd
  jobs d ctx' hd := by
    rw [hobjs] at hd
    rcases update_some_cases hd with ⟨rfl, rfl⟩ | ⟨hdc, hd⟩
    · exact hjobs
    · rw [calls_jobsOf_ne hcalls (by simp [hdc])]
      exact h.jobs d ctx' hd

theorem Session.JobsIn.visit (h : s.JobsIn p sid) {todo : List String}
    (htodo : ∀ d ∈ todo, s.objs d ≠ none) :
    (s.visit todo).1.JobsIn (p.calls (s.visit todo).2) sid := by
  cases todo with
  | nil => exact ⟨h.idle, h.jobs⟩
  | cons c rest =>
    obtain ⟨ctx, hctx⟩ := Option.ne_none_iff_exists'.mp (htodo c List.mem_cons_self)
    simp only [Session.visit, hctx]
    -- the flag and the EOF concern no job
    exact h.update rfl (by simp [PoolCall.Concerns]) (h.jobs c ctx hctx)

theorem Session.JobsIn.move (h : s.JobsIn p sid) (hwf : s.Wf)
    (hmove : Move ops (fun _ _ _ => True) p sid s s' calls) : s'.JobsIn (p.calls calls) sid := by
  cases hmove with
  | stay | badFrame | errorSent => exact ⟨h.idle, h.jobs⟩
  | text msg hopen hrecv =>
    unfold Session.onText
    rw [get?_eq hwf hopen]
    split
    next hnone =>
      -- a new context has no job yet
      have hidle : TaskJobs ((makeContext msg).onText msg) (p.jobsOf ⟨sid, msg.contextId⟩) :=
        h.idle msg.contextId hnone
      exact h.update rfl (by simp) hidle
    next ctx hctx => exact h.update rfl (by simp) (h.jobs msg.contextId ctx hctx)
  | cancel c ctx hopen hrecv hctx =>
    exact h.update rfl (by simp [PoolCall.Concerns]) (h.jobs c ctx (objs_of_get? hctx))
  | task c ctx eff hctx htask =>
    obtain rfl := hwf.ids c ctx hctx
    exact h.update rfl htask.calls_concern (htask.taskJobs (h.jobs _ ctx hctx))
  | close events =>
    have hsame : Session.JobsIn p sid { s with closed := true, trace := s.trace ++ events } :=
      ⟨h.idle, h.jobs⟩
    exact hsame.visit hwf.table
  | closeNext c rest ctx hrecv =>
    exact h.visit fun d hd => (hwf.awaited c rest hrecv).2.2 d (List.mem_cons_of_mem _ hd)

end JobsIn

theorem step_inStep {s s' : Server F} {a : ServerAct F} (hwf : s.Wf) (h : s.InStep)
    (hstep : s.step ops a = some s') : s'.InStep := by
  rcases server_step_cases hstep with ⟨sid, act, r, -, hr, rfl⟩ | ⟨e, p, -, he, rfl⟩
  · have hmove := server_move hwf hr
    intro sid'
    show (Function.update s.sessions sid r.1 sid').JobsIn (s.pool.calls r.2) sid'
    by_cases hs : sid' = sid
    · subst hs
      rw [Function.update_self]
      exact (h sid').move (hwf.sessions sid') hmove
    · rw [Function.update_of_ne hs]
      rcases hmove.calls_own (hwf.sessions sid) with hcalls | ⟨c, -, hcalls⟩
      · rw [hcalls]
        exact h sid'
      · exact (h sid').other (Ne.symm hs) hcalls
  · exact fun sid => (h sid).exec he

/-! ## Where no inner step is left -/

/-- Nothing is under way. -/
structure Server.AtRest (s : Server F) : Prop where
  queued : s.pool.queued = []
  running : s.pool.running = []
  recv : ∀ sid, (s.sessions sid).recv = .listening ∨ (s.sessions sid).recv = .closed
  tasks : ∀ sid c ctx, (s.sessions sid).objs c = some ctx →
    ctx.emit = .finished ∨
      ((s.sessions sid).closed = false ∧ ctx.emit = .atGet ∧ ctx.queue = [])

/-- The invariants of a server, together. -/
structure Server.Sound (s : Server F) : Prop where
  wf : s.Wf
  stages : s.CloseStages
  inStep : s.InStep

theorem init_sound (n : ℕ+) : (Server.init F n).Sound :=
  ⟨init_serverWf n, fun _ => .serving rfl (Or.inl rfl), init_inStep n⟩

theorem step_sound {s s' : Server F} {a : ServerAct F} (h : s.Sound)
    (hstep : s.step ops a = some s') : s'.Sound :=
  ⟨step_serverWf h.wf hstep, step_closeStages h.wf h.stages hstep, step_inStep h.wf h.inStep hstep⟩

/-- If no step of the executor is left, nothing waits and nothing runs. -/
theorem pool_empty {p : WorkerPool F} (hstuck : ∀ e : ExecAct F, p.exec e = none) :
    p.queued = [] ∧ p.running = [] := by
  have hrunning : p.running = [] := by
    cases hr : p.running with
    | nil => rfl
    | cons j rest =>
      -- a running job can come to its end
      have hend := hstuck (.finish j.owner (.error ""))
      simp [WorkerPool.exec, hr] at hend
  refine ⟨?_, hrunning⟩
  cases hq : p.queued with
  | nil => rfl
  | cons j rest =>
    -- a thread is free
    have hstart := hstuck (.start j.owner)
    have hfree : p.running.length < p.nWorkers := by
      rw [hrunning]
      exact p.nWorkers.pos
    simp [WorkerPool.exec, hq, hfree] at hstart

/-- If no step of an emit task is left and the pool is empty, the task is at rest. -/
theorem task_rest {s : Server F} (h : s.Sound) (hqueued : s.pool.queued = [])
    (hrunning : s.pool.running = []) {sid : Nat} {c : String} {ctx : Context}
    (hctx : (s.sessions sid).objs c = some ctx)
    (hemit : (s.sessions sid).step ops s.pool sid (.emit c) = none)
    (hsent : (s.sessions sid).step ops s.pool sid (.sent c none) = none) :
    ctx.emit = .finished ∨ (ctx.emit = .atGet ∧ ctx.queue = []) := by
  have hresume : ctx.resume ops s.pool sid = none := by
    cases hr : ctx.resume ops s.pool sid with
    | none => rfl
    | some eff => simp [Session.step, hctx, hr] at hemit
  have hnosend : ctx.sent s.pool none = none := by
    cases hr : ctx.sent s.pool none with
    | none => rfl
    | some eff => simp [Session.step, hctx, hr] at hsent
  cases hpc : ctx.emit with
  | created => simp [Context.resume, hpc] at hresume
  | atGet =>
    refine Or.inr ⟨rfl, ?_⟩
    by_contra hqueue
    exact resume_of_queue h.wf.ready hpc hqueue hresume
  | inSynth chunk =>
    -- its job is neither waiting nor running, so its result is there
    exfalso
    obtain rfl := (h.wf.sessions sid).ids c ctx hctx
    have hjobs := (h.inStep sid).jobs _ ctx hctx
    simp only [TaskJobs, hpc] at hjobs
    obtain ⟨j, hj, -⟩ := hjobs
    obtain ⟨o, ho⟩ := result?_of_idle hqueued hrunning (by rw [hj]; exact List.mem_singleton_self j)
    exact resume_of_result hpc ho hresume
  | inSend frame rest => simp [Context.sent, hpc] at hnosend
  | inDone => simp [Context.sent, hpc] at hnosend
  | inError message => simp [Context.sent, hpc] at hnosend
  | finished => exact Or.inl rfl

/-- **No inner step is left exactly at rest**: a server never gets stuck half way. -/
theorem settled_iff_atRest {s : Server F} (h : s.Sound) :
    Settled (Server.step ops) ServerAct.Inner s ↔ s.AtRest := by
  constructor
  · intro hset
    have hexec : ∀ e, s.pool.exec e = none := by
      intro e
      simpa [Server.step] using hset (.exec e) trivial
    have hsess : ∀ sid act, (ServerAct.sess (F := F) sid act).Inner →
        (s.sessions sid).step ops s.pool sid act = none := by
      intro sid act hinner
      simpa [Server.step] using hset (.sess sid act) hinner
    obtain ⟨hqueued, hrunning⟩ := pool_empty hexec
    have htask : ∀ sid c ctx, (s.sessions sid).objs c = some ctx →
        ctx.emit = .finished ∨ (ctx.emit = .atGet ∧ ctx.queue = []) := fun sid c ctx hctx =>
      task_rest h hqueued hrunning hctx (hsess sid (.emit c) trivial)
        (hsess sid (.sent c none) trivial)
    have hrecv : ∀ sid, (s.sessions sid).recv = .listening ∨ (s.sessions sid).recv = .closed := by
      intro sid
      cases hr : (s.sessions sid).recv with
      | listening => exact Or.inl rfl
      | sendingError reason =>
        have herr := hsess sid (.errorSent true) trivial
        simp [Session.step, hr] at herr
      | closing c rest =>
        -- the awaited task has finished, or it is at its queue and the wait can time out
        obtain ⟨-, -, hobjs⟩ := (h.wf.sessions sid).awaited c rest hr
        obtain ⟨ctx, hctx⟩ := Option.ne_none_iff_exists'.mp (hobjs c List.mem_cons_self)
        have hnext := hsess sid .closeNext trivial
        have htimeout := hsess sid (.timeout false) trivial
        rcases htask sid c ctx hctx with hfin | ⟨hget, -⟩
        · simp [Session.step, hr, hctx, hfin] at hnext
        · simp [Session.step, hr, hctx, Context.kill, hget] at htimeout
      | closed => exact Or.inr rfl
    refine ⟨hqueued, hrunning, hrecv, fun sid c ctx hctx => ?_⟩
    rcases h.stages sid with ⟨hopen, -⟩ | ⟨c', rest, hclosing⟩ | ⟨-, -, -, hended⟩
    · rcases htask sid c ctx hctx with hfin | hget
      · exact Or.inl hfin
      · exact Or.inr ⟨hopen, hget⟩
    · rcases hrecv sid with hr | hr
      · exact absurd (hr.symm.trans hclosing) (by simp)
      · exact absurd (hr.symm.trans hclosing) (by simp)
    · exact Or.inl (hended c ctx hctx)
  · intro hrest a hinner
    cases a with
    | exec e =>
      cases e with
      | start owner => simp [Server.step, WorkerPool.exec, hrest.queued]
      | finish owner o => simp [Server.step, WorkerPool.exec, hrest.running]
    | sess sid act =>
      have htask : ∀ c ctx, (s.sessions sid).objs c = some ctx →
          ctx.emit = .finished ∨ (ctx.emit = .atGet ∧ ctx.queue = []) := fun c ctx hctx =>
        (hrest.tasks sid c ctx hctx).imp_right And.right
      cases act with
      | handle msg => exact absurd hinner id
      | disconnect => exact absurd hinner id
      | errorSent ok => rcases hrest.recv sid with hr | hr <;> simp [Server.step, Session.step, hr]
      | closeNext => rcases hrest.recv sid with hr | hr <;> simp [Server.step, Session.step, hr]
      | timeout out => rcases hrest.recv sid with hr | hr <;> simp [Server.step, Session.step, hr]
      | emit c =>
        cases hctx : (s.sessions sid).objs c with
        | none => simp [Server.step, Session.step, hctx]
        | some ctx =>
          rcases htask c ctx hctx with hfin | ⟨hget, hqueue⟩
          · simp [Server.step, Session.step, hctx, Context.resume, hfin]
          · simp [Server.step, Session.step, hctx, Context.resume, hget, hqueue]
      | sent c exc =>
        cases hctx : (s.sessions sid).objs c with
        | none => simp [Server.step, Session.step, hctx]
        | some ctx =>
          rcases htask c ctx hctx with hfin | ⟨hget, -⟩
          · simp [Server.step, Session.step, hctx, Context.sent, hfin]
          · simp [Server.step, Session.step, hctx, Context.sent, hget]

end SupertonicServer
