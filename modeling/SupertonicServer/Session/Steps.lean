import SupertonicServer.Pool.Jobs
import SupertonicServer.Session.Basic

/-!
# What a step of a session can do

The step function of a session is inverted once, here, and every later proof starts from the
two relations below instead of from the code:

* `TaskStep` lists what an emit task does between two of its awaits, one constructor for
  each way through the source. It reads the pool in three places only: the flag of its own
  context, and the outcome of its own job, which is one the worker may return (`Res`);
* `Move` lists what a whole session does: a frame is handled, an emit task moves, `close`
  visits a context.
-/

namespace SupertonicServer

open Coalescer (Chunk)
open Wire (Bytes IncomingText IncomingMessage encodeChunk encodeDone encodeError)
open Audio (AudioOps SynthResult pipeline)
open Pool

variable {F : Type}

/-- A step of the emit task of `ctx` under the cancellation flag `flag`; `closing` says that
`close` is awaiting the task, and so may cancel it. -/
inductive TaskStep (ops : AudioOps F) (Res : Chunk → String → Outcome F → Prop) (sid : Nat)
    (flag : Bool) (closing : Prop) (ctx : Context) : Effect F → Prop where
  | start (hemit : ctx.emit = .created) :
      TaskStep ops Res sid flag closing ctx
        { ctx := { ctx with emit := .atGet }, events := [], calls := [] }
  | eofDropped (q : List (Option Chunk)) (hemit : ctx.emit = .atGet)
      (hqueue : ctx.queue = none :: q) (hflag : flag = true) :
      TaskStep ops Res sid flag closing ctx (Context.finish { ctx with queue := q } [] [])
  | eof (q : List (Option Chunk)) (hemit : ctx.emit = .atGet)
      (hqueue : ctx.queue = none :: q) (hflag : flag = false) :
      TaskStep ops Res sid flag closing ctx
        { ctx := { ctx with queue := q, emit := .inDone }
          events := [.sendStarted (encodeDone ctx.contextId)]
          calls := [] }
  | dropped (chunk : Chunk) (q : List (Option Chunk)) (hemit : ctx.emit = .atGet)
      (hqueue : ctx.queue = some chunk :: q) (hflag : flag = true) :
      TaskStep ops Res sid flag closing ctx
        { ctx := { ctx with queue := q }, events := [], calls := [] }
  | submitted (chunk : Chunk) (q : List (Option Chunk)) (hemit : ctx.emit = .atGet)
      (hqueue : ctx.queue = some chunk :: q) (hflag : flag = false) :
      TaskStep ops Res sid flag closing ctx
        { ctx := { ctx with queue := q, emit := .inSynth chunk }
          events := [.submitted ctx.contextId chunk ctx.voiceId]
          calls := [.submit ⟨sid, ctx.contextId⟩ chunk ctx.voiceId] }
  | synthFailed (chunk : Chunk) (message : String) (hemit : ctx.emit = .inSynth chunk)
      (hres : Res chunk ctx.voiceId (.error message)) :
      TaskStep ops Res sid flag closing ctx
        (ctx.crash message [.synthesized ctx.contextId chunk (.error message)]
          [.collect ⟨sid, ctx.contextId⟩])
  | synthDropped (chunk : Chunk) (result : SynthResult F) (hemit : ctx.emit = .inSynth chunk)
      (hres : Res chunk ctx.voiceId (.ok result)) (hflag : flag = true) :
      TaskStep ops Res sid flag closing ctx
        { ctx := { ctx with emit := .atGet }
          events := [.synthesized ctx.contextId chunk (.ok result)]
          calls := [.collect ⟨sid, ctx.contextId⟩] }
  | pipelineFailed (chunk : Chunk) (result : SynthResult F) (message : String)
      (hemit : ctx.emit = .inSynth chunk) (hres : Res chunk ctx.voiceId (.ok result))
      (hflag : flag = false)
      (hpipe : pipeline ops result.wavF32 result.sampleRate ctx.outputSr = .error message) :
      TaskStep ops Res sid flag closing ctx
        (ctx.crash message [.synthesized ctx.contextId chunk (.ok result)]
          [.collect ⟨sid, ctx.contextId⟩])
  | shipped (chunk : Chunk) (result : SynthResult F) (frames : List Bytes)
      (hemit : ctx.emit = .inSynth chunk) (hres : Res chunk ctx.voiceId (.ok result))
      (hflag : flag = false)
      (hpipe : pipeline ops result.wavF32 result.sampleRate ctx.outputSr = .ok frames) :
      TaskStep ops Res sid flag closing ctx
        (ctx.ship flag frames [.synthesized ctx.contextId chunk (.ok result)]
          [.collect ⟨sid, ctx.contextId⟩])
  | chunkSent (pcm : Bytes) (rest : List Bytes) (hemit : ctx.emit = .inSend pcm rest) :
      TaskStep ops Res sid flag closing ctx
        (ctx.ship flag rest [.delivered (encodeChunk ctx.contextId pcm)] [])
  | chunkFailed (pcm : Bytes) (rest : List Bytes) (message : String)
      (hemit : ctx.emit = .inSend pcm rest) :
      TaskStep ops Res sid flag closing ctx
        (ctx.crash message [.sendFailed (encodeChunk ctx.contextId pcm)] [])
  | doneSent (hemit : ctx.emit = .inDone) :
      TaskStep ops Res sid flag closing ctx
        (ctx.finish [.delivered (encodeDone ctx.contextId)] [])
  | doneFailed (message : String) (hemit : ctx.emit = .inDone) :
      TaskStep ops Res sid flag closing ctx
        (ctx.crash message [.sendFailed (encodeDone ctx.contextId)] [])
  | errorSent (message : String) (hemit : ctx.emit = .inError message) :
      TaskStep ops Res sid flag closing ctx
        (ctx.finish [.delivered (encodeError (some ctx.contextId) s!"server: {message}")] [])
  | errorFailed (message : String) (hemit : ctx.emit = .inError message) :
      TaskStep ops Res sid flag closing ctx
        (ctx.finish [.sendFailed (encodeError (some ctx.contextId) s!"server: {message}")] [])
  | killedAtGet (hclosing : closing) (hemit : ctx.emit = .atGet) :
      TaskStep ops Res sid flag closing ctx (ctx.finish [] [])
  | killedInSynth (chunk : Chunk) (hclosing : closing) (hemit : ctx.emit = .inSynth chunk) :
      TaskStep ops Res sid flag closing ctx (ctx.finish [] [.abandon ⟨sid, ctx.contextId⟩])
  | killedInSend (pcm : Bytes) (rest : List Bytes) (hclosing : closing)
      (hemit : ctx.emit = .inSend pcm rest) (out : Bool) :
      TaskStep ops Res sid flag closing ctx
        (ctx.finish [.sendEnded out (encodeChunk ctx.contextId pcm)] [])
  | killedInDone (hclosing : closing) (hemit : ctx.emit = .inDone) :
      TaskStep ops Res sid flag closing ctx
        (ctx.finish [.sendFailed (encodeDone ctx.contextId)] [])

/-- The flag of the context as the emit task reads it. -/
theorem synthesizeStart_of_flag {p : WorkerPool F} (hready : p.ready = true) (c : String) :
    p.synthesizeStart c = if p.isCancelled c then .returnsNone else .submits := by
  simp [WorkerPool.synthesizeStart, hready]

section Inversion

variable {ops : AudioOps F} {Res : Chunk → String → Outcome F → Prop} {p : WorkerPool F}
  {sid : Nat} {ctx : Context} {eff : Effect F} {closing : Prop}

/-- Going on from `queue.get` or from `synthesize`. -/
theorem resume_taskStep (hready : p.ready = true)
    (hres : ∀ chunk o, ctx.emit = .inSynth chunk →
      p.result? ⟨sid, ctx.contextId⟩ = some o → Res chunk ctx.voiceId o)
    (h : ctx.resume ops p sid = some eff) :
    TaskStep ops Res sid (p.isCancelled ctx.contextId) closing ctx eff := by
  unfold Context.resume at h
  split at h
  next hemit =>
    cases h
    exact .start hemit
  next hemit =>
    split at h
    next => exact absurd h (by simp)
    next q hq =>
      dsimp only at h
      split at h
      next hflag =>
        cases h
        exact .eofDropped q hemit hq hflag
      next hflag =>
        cases h
        exact .eof q hemit hq (Bool.eq_false_iff.mpr hflag)
    next chunk q hq =>
      dsimp only at h
      -- no await between the two questions for the flag, so they have one answer
      rw [synthesizeStart_of_flag hready] at h
      by_cases hflag : p.isCancelled ctx.contextId = true
      · rw [if_pos hflag] at h
        cases h
        exact .dropped chunk q hemit hq hflag
      · rw [if_neg hflag, if_neg hflag] at h
        cases h
        exact .submitted chunk q hemit hq (Bool.eq_false_iff.mpr hflag)
  next chunk hemit =>
    dsimp only at h
    split at h
    next => exact absurd h (by simp)
    next outcome hout =>
      have hr := hres chunk outcome hemit hout
      cases outcome with
      | error message =>
        simp only [WorkerPool.synthesizeEnd] at h
        cases h
        exact .synthFailed chunk message hemit hr
      | ok result =>
        simp only [WorkerPool.synthesizeEnd] at h
        by_cases hflag : p.isCancelled ctx.contextId = true
        · rw [if_pos hflag] at h
          cases h
          exact .synthDropped chunk result hemit hr hflag
        · rw [if_neg hflag] at h
          have hflag' : p.isCancelled ctx.contextId = false := Bool.eq_false_iff.mpr hflag
          simp only [Audio.pipelineArray_ofList] at h
          split at h
          next message hpipe =>
            cases h
            exact .pipelineFailed chunk result message hemit hr hflag' hpipe
          next frames hpipe =>
            cases h
            exact .shipped chunk result frames hemit hr hflag' hpipe
  all_goals exact absurd h (by simp)

/-- Going on from a send. -/
theorem sent_taskStep {exc : Option String} (h : ctx.sent p exc = some eff) :
    TaskStep ops Res sid (p.isCancelled ctx.contextId) closing ctx eff := by
  unfold Context.sent at h
  split at h
  next pcm rest hemit =>
    cases exc <;> cases h
    · exact .chunkSent pcm rest hemit
    · exact .chunkFailed pcm rest _ hemit
  next hemit =>
    cases exc <;> cases h
    · exact .doneSent hemit
    · exact .doneFailed _ hemit
  next message hemit =>
    cases exc <;> cases h
    · exact .errorSent message hemit
    · exact .errorFailed message hemit
  next => exact absurd h (by simp)

/-- Ending because `close` lost patience. -/
theorem kill_taskStep {flag out : Bool} (hclosing : closing) (h : ctx.kill sid out = some eff) :
    TaskStep ops Res sid flag closing ctx eff := by
  unfold Context.kill at h
  dsimp only at h
  split at h
  next => exact absurd h (by simp)
  next hemit =>
    cases h
    exact .killedAtGet hclosing hemit
  next chunk hemit =>
    cases h
    exact .killedInSynth chunk hclosing hemit
  next pcm rest hemit =>
    cases h
    exact .killedInSend pcm rest hclosing hemit out
  next hemit =>
    -- a `done` that went out after all is one that was sent
    cases out <;> cases h
    · exact .killedInDone hclosing hemit
    · exact .doneSent hemit
  next message hemit =>
    cases out <;> cases h
    · exact .errorFailed message hemit
    · exact .errorSent message hemit
  next => exact absurd h (by simp)

/-! ## What every step of an emit task keeps -/

@[simp] theorem ship_calls (flag : Bool) (ctx : Context) (frames : List Bytes)
    (events : List (Event F)) (calls : List PoolCall) :
    (ctx.ship flag frames events calls).calls = calls := by
  unfold Context.ship
  split
  next => rfl
  next => split <;> rfl

/-- Shipping changes a context in its suspension point only, which is then the queue or a
send. -/
theorem ship_ctx (flag : Bool) (ctx : Context) (frames : List Bytes)
    (events : List (Event F)) (calls : List PoolCall) :
    ∃ pc, (ctx.ship flag frames events calls).ctx = { ctx with emit := pc } ∧
      (pc = .atGet ∨ ∃ pcm rest, pc = .inSend pcm rest) := by
  unfold Context.ship
  split
  next => exact ⟨.atGet, rfl, Or.inl rfl⟩
  next pcm rest =>
    split
    next => exact ⟨.atGet, rfl, Or.inl rfl⟩
    next => exact ⟨.inSend pcm rest, rfl, Or.inr ⟨pcm, rest, rfl⟩⟩

theorem mem_ship_events {flag : Bool} {ctx : Context} {frames : List Bytes}
    {events : List (Event F)} {calls : List PoolCall} {e : Event F}
    (h : e ∈ (ctx.ship flag frames events calls).events) :
    e ∈ events ∨ ∃ pcm ∈ frames, flag = false ∧
      e = .sendStarted (encodeChunk ctx.contextId pcm) := by
  unfold Context.ship at h
  split at h
  next => exact Or.inl h
  next pcm rest =>
    split at h
    next => exact Or.inl h
    next hflag =>
      rcases List.mem_append.mp h with h | h
      · exact Or.inl h
      · refine Or.inr ⟨pcm, List.mem_cons_self, Bool.eq_false_iff.mpr hflag, ?_⟩
        exact List.mem_singleton.mp h

/-- The context keeps its name, its voice, its rate and its coalescer. -/
theorem TaskStep.keeps {flag : Bool} (h : TaskStep ops Res sid flag closing ctx eff) :
    ∃ q pc, eff.ctx = { ctx with queue := q, emit := pc } := by
  cases h with
  | shipped | chunkSent =>
    obtain ⟨pc, hctx, -⟩ := ship_ctx _ _ _ _ _
    exact ⟨ctx.queue, pc, hctx⟩
  | _ => exact ⟨_, _, rfl⟩

theorem TaskStep.mono {flag : Bool} {Res' : Chunk → String → Outcome F → Prop}
    {closing' : Prop} (hres : ∀ chunk o, Res chunk ctx.voiceId o → Res' chunk ctx.voiceId o)
    (hclosing : closing → closing') (h : TaskStep ops Res sid flag closing ctx eff) :
    TaskStep ops Res' sid flag closing' ctx eff := by
  cases h with
  | start hemit => exact .start hemit
  | eofDropped q hemit hqueue hflag => exact .eofDropped q hemit hqueue hflag
  | eof q hemit hqueue hflag => exact .eof q hemit hqueue hflag
  | dropped chunk q hemit hqueue hflag => exact .dropped chunk q hemit hqueue hflag
  | submitted chunk q hemit hqueue hflag => exact .submitted chunk q hemit hqueue hflag
  | synthFailed chunk message hemit hr => exact .synthFailed chunk message hemit (hres _ _ hr)
  | synthDropped chunk result hemit hr hflag =>
    exact .synthDropped chunk result hemit (hres _ _ hr) hflag
  | pipelineFailed chunk result message hemit hr hflag hpipe =>
    exact .pipelineFailed chunk result message hemit (hres _ _ hr) hflag hpipe
  | shipped chunk result frames hemit hr hflag hpipe =>
    exact .shipped chunk result frames hemit (hres _ _ hr) hflag hpipe
  | chunkSent pcm rest hemit => exact .chunkSent pcm rest hemit
  | chunkFailed pcm rest message hemit => exact .chunkFailed pcm rest message hemit
  | doneSent hemit => exact .doneSent hemit
  | doneFailed message hemit => exact .doneFailed message hemit
  | errorSent message hemit => exact .errorSent message hemit
  | errorFailed message hemit => exact .errorFailed message hemit
  | killedAtGet hc hemit => exact .killedAtGet (hclosing hc) hemit
  | killedInSynth chunk hc hemit => exact .killedInSynth chunk (hclosing hc) hemit
  | killedInSend pcm rest hc hemit out => exact .killedInSend pcm rest (hclosing hc) hemit out
  | killedInDone hc hemit => exact .killedInDone (hclosing hc) hemit

/-- A task that has finished takes no step. -/
theorem TaskStep.live {flag : Bool} (h : TaskStep ops Res sid flag closing ctx eff) :
    ctx.emit ≠ .finished := by
  intro hfinished
  cases h <;> simp_all only [reduceCtorEq]

/-- All its events are of its own context. -/
theorem TaskStep.events_contextId {flag : Bool}
    (h : TaskStep ops Res sid flag closing ctx eff) :
    ∀ e ∈ eff.events, e.contextId? = some ctx.contextId := by
  cases h with
  | shipped | chunkSent =>
    intro e he
    rcases mem_ship_events he with he | ⟨_, _, _, rfl⟩
    · rw [List.mem_singleton.mp he]
      rfl
    · rfl
  | killedInSend pcm rest hclosing hemit out =>
    intro e he
    rw [List.mem_singleton.mp he]
    cases out <;> rfl
  | _ => simp [Context.finish, Context.crash, Event.contextId?]

/-- An event of an emit task, as against one of the receive loop or of `close`. -/
def Event.OfTask : Event F → Prop
  | .textHandled _ => False
  | .cancelHandled _ => False
  | .closing _ => False
  | .put _ _ => False
  | _ => True

theorem TaskStep.ofTask {flag : Bool} (h : TaskStep ops Res sid flag closing ctx eff) :
    ∀ e ∈ eff.events, e.OfTask := by
  cases h with
  | shipped | chunkSent =>
    intro e he
    rcases mem_ship_events he with he | ⟨_, _, _, rfl⟩
    · rw [List.mem_singleton.mp he]
      trivial
    · trivial
  | killedInSend pcm rest hclosing hemit out =>
    intro e he
    rw [List.mem_singleton.mp he]
    cases out <;> trivial
  | _ => simp [Context.finish, Context.crash, Event.OfTask]

/-- What its calls do to the flags: the end of the task clears its own, nothing else is
touched. -/
theorem TaskStep.calls_cancelled {flag : Bool} (h : TaskStep ops Res sid flag closing ctx eff)
    (q : WorkerPool F) :
    (q.calls eff.calls).cancelled =
      if eff.ctx.emit = .finished then q.cancelled.erase ctx.contextId else q.cancelled := by
  cases h with
  | shipped | chunkSent =>
    obtain ⟨pc, hctx, hpc⟩ := ship_ctx (F := F) _ ctx _ _ _
    rw [ship_calls, hctx, if_neg]
    · rfl
    · rcases hpc with rfl | ⟨_, _, rfl⟩ <;> simp
  | dropped chunk q hemit | submitted chunk q hemit =>
    rw [if_neg (by simp [hemit])]
    rfl
  | _ => rfl

/-- It calls the pool for its own context only. -/
theorem TaskStep.calls_concern {flag : Bool} (h : TaskStep ops Res sid flag closing ctx eff) :
    ∀ k ∈ eff.calls, k.Concerns sid ctx.contextId := by
  cases h with
  | shipped | chunkSent => simp [PoolCall.Concerns]
  | _ => simp [Context.finish, Context.crash, PoolCall.Concerns]

/-- The jobs a task may have in the pool: the one it is waiting for, if any. -/
def TaskJobs (ctx : Context) (jobs : List Job) : Prop :=
  match ctx.emit with
  | .inSynth chunk => ∃ j, jobs = [j] ∧ j.text = chunk ∧ j.voiceName = ctx.voiceId
  | .finished => True
  | _ => jobs = []

/-- What its calls do to its own jobs. -/
theorem TaskStep.taskJobs {flag : Bool} {q : WorkerPool F}
    (h : TaskStep ops (fun chunk voice o => Res chunk voice o ∧
      q.result? ⟨sid, ctx.contextId⟩ = some o) sid flag closing ctx eff)
    (hjobs : TaskJobs ctx (q.jobsOf ⟨sid, ctx.contextId⟩)) :
    TaskJobs eff.ctx ((q.calls eff.calls).jobsOf ⟨sid, ctx.contextId⟩) := by
  -- after the await the one job of the task is collected
  have hcollect : ∀ chunk o, ctx.emit = .inSynth chunk →
      q.result? ⟨sid, ctx.contextId⟩ = some o →
      (q.collect ⟨sid, ctx.contextId⟩).jobsOf ⟨sid, ctx.contextId⟩ = [] := by
    intro chunk o hemit ho
    simp only [TaskJobs, hemit] at hjobs
    obtain ⟨j, hj, -⟩ := hjobs
    exact jobsOf_collect_self ho hj
  cases h with
  | start hemit | eof _ hemit | dropped _ _ hemit =>
    simp only [TaskJobs, hemit] at hjobs
    simpa [TaskJobs, hemit] using hjobs
  | submitted chunk rest hemit =>
    simp only [TaskJobs, hemit] at hjobs
    exact jobsOf_submit_self chunk ctx.voiceId hjobs
  | synthFailed chunk message hemit hr => exact hcollect chunk _ hemit hr.2
  | synthDropped chunk result hemit hr => exact hcollect chunk _ hemit hr.2
  | pipelineFailed chunk result message hemit hr => exact hcollect chunk _ hemit hr.2
  | shipped chunk result frames hemit hr =>
    obtain ⟨pc, hctx, hpc⟩ := ship_ctx (F := F) flag ctx frames _ _
    rw [ship_calls, hctx]
    rcases hpc with rfl | ⟨_, _, rfl⟩ <;> exact hcollect chunk _ hemit hr.2
  | chunkSent pcm rest hemit =>
    simp only [TaskJobs, hemit] at hjobs
    obtain ⟨pc, hctx, hpc⟩ := ship_ctx (F := F) flag ctx rest _ _
    rw [ship_calls, hctx]
    rcases hpc with rfl | ⟨_, _, rfl⟩ <;> exact hjobs
  | chunkFailed pcm rest message hemit =>
    simp only [TaskJobs, hemit] at hjobs
    exact hjobs
  | doneFailed message hemit =>
    simp only [TaskJobs, hemit] at hjobs
    exact hjobs
  | _ => trivial


/-! ## The moves of a session -/

/-- A step of a session, by what it does. -/
inductive Move (ops : AudioOps F) (Res : Chunk → String → Outcome F → Prop) (p : WorkerPool F)
    (sid : Nat) (s : Session F) : Session F → List PoolCall → Prop where
  | stay : Move ops Res p sid s s []
  | badFrame (reason : String) (hopen : s.closed = false) (hrecv : s.recv = .listening) :
      Move ops Res p sid s
        { s with
          recv := .sendingError reason
          trace := s.trace ++ [.sendStarted (encodeError none reason)] } []
  | errorSent (reason : String) (hrecv : s.recv = .sendingError reason) :
      Move ops Res p sid s
        { s with
          recv := .listening
          trace := s.trace ++ [.delivered (encodeError none reason)] } []
  | text (msg : IncomingText) (hopen : s.closed = false) (hrecv : s.recv = .listening) :
      Move ops Res p sid s (s.onText msg) []
  | cancel (c : String) (ctx : Context) (hopen : s.closed = false)
      (hrecv : s.recv = .listening) (hctx : s.get? c = some ctx) :
      Move ops Res p sid s
        (s.withContext c { ctx with queue := [none] } [.cancelHandled c, .put c none])
        [.cancel c]
  | task (c : String) (ctx : Context) (eff : Effect F) (hctx : s.objs c = some ctx)
      (htask : TaskStep ops
        (fun chunk voice o => Res chunk voice o ∧ p.result? ⟨sid, ctx.contextId⟩ = some o)
        sid (p.isCancelled ctx.contextId) (∃ rest, s.recv = .closing c rest) ctx eff) :
      Move ops Res p sid s (s.withContext c eff.ctx eff.events) eff.calls
  | close (events : List (Event F)) (hnone : ∀ e ∈ events, e.contextId? = none)
      (hrecv : s.recv = .listening ∨ ∃ reason, s.recv = .sendingError reason) :
      Move ops Res p sid s (Session.close { s with trace := s.trace ++ events }).1
        (Session.close { s with trace := s.trace ++ events }).2
  | closeNext (c : String) (rest : List String) (ctx : Context)
      (hrecv : s.recv = .closing c rest) (hctx : s.objs c = some ctx)
      (hfinished : ctx.emit = .finished) :
      Move ops Res p sid s (s.visit rest).1 (s.visit rest).2

/-- Handling a message is a move. -/
theorem handle_move {s : Session F} {msg : IncomingMessage} {r : Session F × List PoolCall}
    (h : s.handle msg = some r) : Move ops Res p sid s r.1 r.2 := by
  unfold Session.handle at h
  by_cases hclosed : s.closed = true
  · rw [if_pos hclosed] at h
    cases h
    exact .stay
  · rw [if_neg hclosed] at h
    have hopen : s.closed = false := Bool.eq_false_iff.mpr hclosed
    cases hrecv : s.recv <;> rw [hrecv] at h
    case listening =>
      cases msg with
      | parseError e =>
        cases h
        exact .badFrame e.reason hopen hrecv
      | cancel m =>
        cases h
        unfold Session.cancel
        split
        -- a cancel of a context the session does not know changes nothing
        next => exact .stay
        next ctx hctx => exact .cancel m.contextId ctx hopen hrecv hctx
      | text m =>
        cases h
        exact .text m hopen hrecv
    all_goals exact absurd h (by simp)

/-- Every step of a session is a move. -/
theorem step_move {s : Session F} {a : Action} {r : Session F × List PoolCall}
    (hready : p.ready = true)
    (hres : ∀ c ctx chunk o, s.objs c = some ctx → ctx.emit = .inSynth chunk →
      p.result? ⟨sid, ctx.contextId⟩ = some o → Res chunk ctx.voiceId o)
    (h : s.step ops p sid a = some r) : Move ops Res p sid s r.1 r.2 := by
  cases a with
  | handle msg => exact handle_move h
  | errorSent ok =>
    simp only [Session.step] at h
    split at h
    next reason hrecv =>
      cases ok <;> cases h
      -- the failed send ends the receive loop
      · exact .close [.sendFailed (encodeError none reason)] (by simp [Event.contextId?])
          (Or.inr ⟨reason, hrecv⟩)
      · exact .errorSent reason hrecv
    next => exact absurd h (by simp)
  | emit c =>
    obtain ⟨ctx, hctx, h⟩ := Option.bind_eq_some_iff.mp h
    obtain ⟨eff, heff, h⟩ := Option.bind_eq_some_iff.mp h
    cases h
    refine .task c ctx eff hctx (resume_taskStep hready ?_ heff)
    exact fun chunk o hemit ho => ⟨hres c ctx chunk o hctx hemit ho, ho⟩
  | sent c exc =>
    obtain ⟨ctx, hctx, h⟩ := Option.bind_eq_some_iff.mp h
    obtain ⟨eff, heff, h⟩ := Option.bind_eq_some_iff.mp h
    cases h
    exact .task c ctx eff hctx (sent_taskStep heff)
  | disconnect =>
    simp only [Session.step] at h
    split at h
    next hrecv =>
      cases h
      have hmove : Move ops Res p sid s _ _ := .close [] (by simp) (Or.inl hrecv)
      simpa using hmove
    next => exact absurd h (by simp)
  | closeNext =>
    simp only [Session.step] at h
    split at h
    next c rest hrecv =>
      split at h
      next ctx hctx =>
        split at h
        next hfin =>
          cases h
          exact .closeNext c rest ctx hrecv hctx hfin
        next => exact absurd h (by simp)
      next => exact absurd h (by simp)
    next => exact absurd h (by simp)
  | timeout out =>
    simp only [Session.step] at h
    split at h
    next c rest hrecv =>
      obtain ⟨ctx, hctx, h⟩ := Option.bind_eq_some_iff.mp h
      obtain ⟨eff, heff, h⟩ := Option.bind_eq_some_iff.mp h
      cases h
      exact .task c ctx eff hctx (kill_taskStep ⟨rest, hrecv⟩ heff)
    next => exact absurd h (by simp)

end Inversion

end SupertonicServer
