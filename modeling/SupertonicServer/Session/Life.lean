import SupertonicServer.Lib.Run
import SupertonicServer.Session.Shape

/-!
# The life of one context

Seen from one context, a session that has its pool to itself is a sequential machine: the
flag of the context in the pool, its `_Context`, and the events that carry its id. `Life` are
the steps of that machine and `Lives` the states it can reach; `SoloInv` says that every
context of every reachable session is in such a state, whatever the interleaving with the
receive loop, the other contexts and the executor. The laws of a session about one context
are then proved by induction over `Lives`, where nothing else moves.

The worker appears only through `Res`: the outcomes it may return for a text and a voice.
-/

namespace SupertonicServer

open Coalescer (Chunk)
open Wire (IncomingText)
open Audio (AudioOps)
open Pool
open Lib (run StepsMeet run_inv_of stepsMeet_of_forall)

variable {F : Type}

/-- The events that carry the id `c`. -/
def ofContext (c : String) (tr : List (Event F)) : List (Event F) :=
  tr.filter fun e => e.contextId? = some c

@[simp] theorem ofContext_append (c : String) (tr evs : List (Event F)) :
    ofContext c (tr ++ evs) = ofContext c tr ++ ofContext c evs :=
  List.filter_append ..

theorem ofContext_cons_self {c : String} {e : Event F} (he : e.contextId? = some c)
    (tr : List (Event F)) : ofContext c (e :: tr) = e :: ofContext c tr :=
  List.filter_cons_of_pos (by simpa using he)

theorem mem_ofContext {c : String} {tr : List (Event F)} {e : Event F} :
    e ∈ ofContext c tr ↔ e ∈ tr ∧ e.contextId? = some c := by
  simp [ofContext]

theorem ofContext_self {c : String} {evs : List (Event F)}
    (h : ∀ e ∈ evs, e.contextId? = some c) : ofContext c evs = evs :=
  List.filter_eq_self.mpr (by simpa using h)

theorem ofContext_other {c : String} {evs : List (Event F)}
    (h : ∀ e ∈ evs, e.contextId? ≠ some c) : ofContext c evs = [] :=
  List.filter_eq_nil_iff.mpr (by simpa using h)

/-! ## The machine -/

/-- The emit task has left its loop. -/
def EmitPc.PastLoop : EmitPc → Prop
  | .inDone => True
  | .inError _ => True
  | .finished => True
  | _ => False

/-- One context in the world: its flag, its `_Context`, its history. -/
structure View (F : Type) where
  flag : Bool
  ctx : Context
  trace : List (Event F)

/-- A context made by its first text frame. -/
def View.born (F : Type) (msg : IncomingText) : View F :=
  { flag := false
    ctx := (makeContext msg).onText msg
    trace := textEvents (makeContext msg) msg }

/-- A step of its emit task; a task that ends forgets the flag. -/
def View.after (v : View F) (eff : Effect F) : View F :=
  { flag := if eff.ctx.emit = .finished then false else v.flag
    ctx := eff.ctx
    trace := v.trace ++ eff.events }

/-- A step in the life of a context. -/
inductive Life (ops : AudioOps F) (Res : Chunk → String → Outcome F → Prop) (sid : Nat)
    (v : View F) : View F → Prop where
  | text (msg : IncomingText) (hid : msg.contextId = v.ctx.contextId) :
      Life ops Res sid v
        { v with ctx := v.ctx.onText msg, trace := v.trace ++ textEvents v.ctx msg }
  | cancel :
      Life ops Res sid v
        { flag := true
          ctx := { v.ctx with queue := [none] }
          trace := v.trace ++ [.cancelHandled v.ctx.contextId, .put v.ctx.contextId none] }
  | closing :
      Life ops Res sid v
        { flag := true
          ctx := { v.ctx with queue := v.ctx.queue ++ [none] }
          trace := v.trace ++ [.closing v.ctx.contextId, .put v.ctx.contextId none] }
  | task (eff : Effect F)
      (htask : TaskStep ops Res sid v.flag (.closing v.ctx.contextId ∈ v.trace) v.ctx eff) :
      Life ops Res sid v (v.after eff)

/-- The states a context can be in. -/
inductive Lives (ops : AudioOps F) (Res : Chunk → String → Outcome F → Prop) (sid : Nat) :
    View F → Prop where
  | born (msg : IncomingText) : Lives ops Res sid (View.born F msg)
  | step {v v' : View F} (hlives : Lives ops Res sid v) (hlife : Life ops Res sid v v') :
      Lives ops Res sid v'

/-- A context keeps its name, its voice and its rate for life. -/
theorem Life.keeps {ops : AudioOps F} {Res : Chunk → String → Outcome F → Prop} {sid : Nat}
    {v v' : View F} (h : Life ops Res sid v v') :
    v'.ctx.contextId = v.ctx.contextId ∧ v'.ctx.voiceId = v.ctx.voiceId ∧
      v'.ctx.outputSr = v.ctx.outputSr := by
  cases h with
  | text | cancel | closing => exact ⟨rfl, rfl, rfl⟩
  | task eff htask =>
    obtain ⟨q, pc, heff⟩ := htask.keeps
    show eff.ctx.contextId = _ ∧ eff.ctx.voiceId = _ ∧ eff.ctx.outputSr = _
    rw [heff]
    exact ⟨rfl, rfl, rfl⟩

/-- The context was cancelled, or `close` has reached it. -/
def Stopped (c : String) (tr : List (Event F)) : Prop := .cancelHandled c ∈ tr ∨ .closing c ∈ tr

theorem stopped_append {c : String} {tr evs : List (Event F)} :
    Stopped c (tr ++ evs) ↔ Stopped c tr ∨ Stopped c evs := by
  unfold Stopped
  simp only [List.mem_append]
  tauto

theorem not_stopped_of_ofTask {c : String} {evs : List (Event F)} (h : ∀ e ∈ evs, e.OfTask) :
    ¬ Stopped c evs := by
  intro hstop
  rcases hstop with hmem | hmem
  · exact h _ hmem
  · exact h _ hmem

theorem not_stopped_textEvents {c : String} (ctx : Context) (msg : IncomingText) :
    ¬ Stopped c (textEvents (F := F) ctx msg) := by
  simp [Stopped, textEvents]

/-- While its emit task is running, the flag of a context says that the session has stopped
it. -/
theorem Lives.flag_iff {ops : AudioOps F} {Res : Chunk → String → Outcome F → Prop} {sid : Nat}
    {v : View F} (h : Lives ops Res sid v) (hlive : v.ctx.emit ≠ .finished) :
    v.flag = true ↔ Stopped v.ctx.contextId v.trace := by
  induction h with
  | born msg =>
    have hno := not_stopped_textEvents (F := F) (c := msg.contextId) (makeContext msg) msg
    exact ⟨fun hflag => absurd hflag (by simp [View.born]), fun hstop => absurd hstop hno⟩
  | @step v v' hlives hlife ih =>
    rw [hlife.keeps.1]
    cases hlife with
    | text msg hid =>
      rw [stopped_append, or_iff_left (not_stopped_textEvents v.ctx msg)]
      exact ih hlive
    | cancel => simp [Stopped]
    | closing => simp [Stopped]
    | task eff htask =>
      -- a task takes its flag down at its end only, and never stops itself
      have hlive' : eff.ctx.emit ≠ .finished := hlive
      show (if eff.ctx.emit = .finished then false else v.flag) = true ↔
        Stopped v.ctx.contextId (v.trace ++ eff.events)
      rw [if_neg hlive', stopped_append, or_iff_left (not_stopped_of_ofTask htask.ofTask)]
      exact ih htask.live

/-! ## The invariant of a session alone on its pool -/

/-- The context `c` of a session with its pool. -/
def Solo.view (w : Solo F) (c : String) (ctx : Context) : View F :=
  { flag := w.pool.isCancelled c, ctx := ctx, trace := ofContext c w.session.trace }

/-- What holds in every state of a session that has its pool to itself. -/
structure SoloInv (ops : AudioOps F) (Res : Chunk → String → Outcome F → Prop) (sid : Nat)
    (w : Solo F) : Prop where
  wf : w.session.Wf
  ready : w.pool.ready = true
  flags : ∀ c ∈ w.pool.cancelled, w.session.objs c ≠ none
  idle : ∀ c, w.session.objs c = none → w.pool.jobsOf ⟨sid, c⟩ = []
  jobs : ∀ c ctx, w.session.objs c = some ctx → TaskJobs ctx (w.pool.jobsOf ⟨sid, c⟩)
  results : ∀ r ∈ w.pool.resolved, Res r.1.text r.1.voiceName r.2
  lives : ∀ c ctx, w.session.objs c = some ctx → Lives ops Res sid (w.view c ctx)

/-- The worker answers with outcomes it may return. -/
def WorkerMeets (Res : Chunk → String → Outcome F → Prop) (w : Solo F) : SoloAct F → Prop
  | .exec (.finish owner o) =>
    ∀ j ∈ w.pool.running, j.owner = owner → Res j.text j.voiceName o
  | _ => True

section Preservation

variable {ops : AudioOps F} {Res : Chunk → String → Outcome F → Prop} {sid : Nat}

theorem init_soloInv (n : ℕ+) : SoloInv ops Res sid (Solo.init F n) :=
  { wf := init_wf
    ready := rfl
    flags := fun c hc => absurd hc (Finset.notMem_empty c)
    idle := fun _ _ => rfl
    jobs := fun c ctx h => absurd h (by simp [Solo.init, Session.init])
    results := fun r hr => absurd hr List.not_mem_nil
    lives := fun c ctx h => absurd h (by simp [Solo.init, Session.init]) }

/-- The executor touches no context. -/
theorem SoloInv.exec {w : Solo F} (h : SoloInv ops Res sid w) {e : ExecAct F}
    {p : WorkerPool F} (hp : w.pool.exec e = some p)
    (hres : WorkerMeets Res w (.exec e)) : SoloInv ops Res sid { w with pool := p } where
  wf := h.wf
  ready := (exec_ready hp).trans h.ready
  flags c hc := h.flags c (by rwa [exec_cancelled hp] at hc)
  idle c hc := by
    have hperm := exec_jobsOf_perm hp ⟨sid, c⟩
    rw [h.idle c hc] at hperm
    exact hperm.eq_nil
  jobs c ctx hctx := by
    have hperm := exec_jobsOf_perm hp ⟨sid, c⟩
    have hjobs := h.jobs c ctx hctx
    unfold TaskJobs at hjobs ⊢
    split at hjobs
    next chunk hemit =>
      obtain ⟨j, hj, hjob⟩ := hjobs
      rw [hj] at hperm
      exact ⟨j, List.perm_singleton.mp hperm, hjob⟩
    next => trivial
    next =>
      rw [hjobs] at hperm
      exact hperm.eq_nil
  results r hr := by
    rcases exec_cases hp with ⟨_, _, _, _, _, _, _, rfl⟩ | ⟨owner, o, j, rfl, hj, hown, _, rfl⟩
    · exact h.results r hr
    · rcases List.mem_append.mp hr with hr | hr
      · exact h.results r hr
      · rw [List.mem_singleton.mp hr]
        exact hres j hj hown
  lives c ctx hctx := by
    have hflag : p.isCancelled c = w.pool.isCancelled c := by
      unfold WorkerPool.isCancelled
      rw [exec_cancelled hp]
    unfold Solo.view
    rw [hflag]
    exact h.lives c ctx hctx

/-- A context changes or is born: what has to be checked is about that context alone. -/
theorem SoloInv.withContext {w : Solo F} (h : SoloInv ops Res sid w) {c : String}
    {ctx : Context} {evs : List (Event F)} {calls : List PoolCall} {s : Session F}
    (hwf : s.Wf) (hobjs : s.objs = Function.update w.session.objs c (some ctx))
    (htrace : s.trace = w.session.trace ++ evs) (hevs : ∀ e ∈ evs, e.contextId? = some c)
    (hcalls : ∀ k ∈ calls, k.Concerns sid c)
    (hjobs : TaskJobs ctx ((w.pool.calls calls).jobsOf ⟨sid, c⟩))
    (hlives : Lives ops Res sid
      ⟨(w.pool.calls calls).isCancelled c, ctx, ofContext c w.session.trace ++ evs⟩) :
    SoloInv ops Res sid { pool := w.pool.calls calls, session := s } where
  wf := hwf
  ready := (calls_ready _ _).trans h.ready
  flags d hd := by
    rw [hobjs]
    by_cases hdc : d = c
    · rw [hdc, Function.update_self]
      simp
    · rw [Function.update_of_ne hdc]
      exact h.flags d ((calls_cancelled_ne hcalls hdc).mp hd)
  idle d hd := by
    rw [hobjs] at hd
    by_cases hdc : d = c
    · rw [hdc, Function.update_self] at hd
      exact absurd hd (by simp)
    · rw [Function.update_of_ne hdc] at hd
      rw [calls_jobsOf_ne hcalls (by simp [hdc])]
      exact h.idle d hd
  jobs d ctx₁ hd := by
    rw [hobjs] at hd
    rcases update_some_cases hd with ⟨rfl, rfl⟩ | ⟨hdc, hd⟩
    · exact hjobs
    · rw [calls_jobsOf_ne hcalls (by simp [hdc])]
      exact h.jobs d ctx₁ hd
  results r hr := h.results r (mem_calls_resolved hr)
  lives d ctx₁ hd := by
    rw [hobjs] at hd
    unfold Solo.view
    dsimp only
    rw [htrace, ofContext_append]
    rcases update_some_cases hd with ⟨rfl, rfl⟩ | ⟨hdc, hd⟩
    · rw [ofContext_self hevs]
      exact hlives
    · -- another context sees neither the events nor the calls
      have hnone : ofContext d evs = [] := ofContext_other fun e he => by
        rw [hevs e he]
        simp [Ne.symm hdc]
      have hflag : (w.pool.calls calls).isCancelled d = w.pool.isCancelled d := by
        simp only [WorkerPool.isCancelled, calls_cancelled_ne hcalls hdc]
      rw [hnone, hflag, List.append_nil]
      exact h.lives d ctx₁ hd

/-- Nothing happens to any context. -/
theorem SoloInv.quiet {w : Solo F} (h : SoloInv ops Res sid w) {evs : List (Event F)}
    {s : Session F} (hwf : s.Wf) (hobjs : s.objs = w.session.objs)
    (htrace : s.trace = w.session.trace ++ evs) (hevs : ∀ e ∈ evs, e.contextId? = none) :
    SoloInv ops Res sid { w with session := s } where
  wf := hwf
  ready := h.ready
  flags c hc := by
    rw [hobjs]
    exact h.flags c hc
  idle c hc := by
    rw [hobjs] at hc
    exact h.idle c hc
  jobs c ctx hctx := by
    rw [hobjs] at hctx
    exact h.jobs c ctx hctx
  results := h.results
  lives c ctx hctx := by
    rw [hobjs] at hctx
    have hnone : ofContext c evs = [] := ofContext_other fun e he => by simp [hevs e he]
    unfold Solo.view
    dsimp only
    rw [htrace, ofContext_append, hnone, List.append_nil]
    exact h.lives c ctx hctx

theorem SoloInv.text {w : Solo F} (h : SoloInv ops Res sid w) {msg : IncomingText}
    (hopen : w.session.closed = false) (hwf : (w.session.onText msg).Wf) :
    SoloInv ops Res sid { w with session := w.session.onText msg } := by
  unfold Session.onText at hwf ⊢
  rw [get?_eq h.wf hopen] at hwf ⊢
  have hnone : ∀ k ∈ ([] : List PoolCall), k.Concerns sid msg.contextId := by simp
  cases hctx : w.session.objs msg.contextId with
  | none =>
    rw [hctx] at hwf
    -- the session has no context of this id, so no flag and no history of it either
    have hflag : w.pool.isCancelled msg.contextId = false := by
      rw [Bool.eq_false_iff]
      intro hmem
      exact h.flags _ ((isCancelled_iff _ _).mp hmem) hctx
    have hfresh : ofContext msg.contextId w.session.trace = [] := by
      refine ofContext_other fun e he heq => h.wf.trace e he _ heq hctx
    refine h.withContext hwf rfl rfl (textEvents_contextId _ msg) hnone ?_ ?_
    · exact h.idle _ hctx
    · rw [calls_nil, hflag, hfresh]
      exact .born msg
  | some ctx =>
    rw [hctx] at hwf
    have hid := h.wf.ids _ ctx hctx
    refine h.withContext hwf rfl rfl (textEvents_contextId _ msg) hnone ?_ ?_
    · exact h.jobs _ ctx hctx
    · exact .step (h.lives _ ctx hctx) (.text msg hid.symm)

theorem SoloInv.visit {w : Solo F} (h : SoloInv ops Res sid w)
    (hclosed : w.session.closed = true) {todo : List String}
    (htodo : ∀ d ∈ todo, w.session.objs d ≠ none) :
    SoloInv ops Res sid
      { pool := w.pool.calls (w.session.visit todo).2, session := (w.session.visit todo).1 } := by
  have hwf := h.wf.visit hclosed htodo
  cases todo with
  | nil => exact h.quiet hwf rfl (List.append_nil _).symm (by simp)
  | cons c rest =>
    obtain ⟨ctx, hctx⟩ := Option.ne_none_iff_exists'.mp (htodo c List.mem_cons_self)
    obtain rfl := h.wf.ids c ctx hctx
    simp only [Session.visit, hctx] at hwf ⊢
    refine h.withContext hwf rfl rfl (by simp [Event.contextId?]) (by simp [PoolCall.Concerns])
      ?_ ?_
    · exact h.jobs _ ctx hctx
    · have hflag : (w.pool.calls [.cancel ctx.contextId]).isCancelled ctx.contextId = true := by
        simp [WorkerPool.call, WorkerPool.cancel]
      rw [hflag]
      exact .step (h.lives _ ctx hctx) .closing

/-- Every move of the session keeps the invariant. -/
theorem SoloInv.move {w : Solo F} (h : SoloInv ops Res sid w) {s : Session F}
    {calls : List PoolCall} (hmove : Move ops Res w.pool sid w.session s calls) :
    SoloInv ops Res sid { pool := w.pool.calls calls, session := s } := by
  have hwf := hmove.wf h.wf
  cases hmove with
  | stay => exact h
  | badFrame reason hopen hrecv => exact h.quiet hwf rfl rfl (by simp [Event.contextId?])
  | errorSent reason hrecv => exact h.quiet hwf rfl rfl (by simp [Event.contextId?])
  | text msg hopen hrecv => exact h.text hopen hwf
  | cancel c ctx hopen hrecv hctx =>
    have hobj := objs_of_get? hctx
    obtain rfl := h.wf.ids c ctx hobj
    refine h.withContext hwf rfl rfl (by simp [Event.contextId?]) (by simp [PoolCall.Concerns])
      ?_ ?_
    · exact h.jobs _ ctx hobj
    · have hflag : (w.pool.calls [.cancel ctx.contextId]).isCancelled ctx.contextId = true := by
        simp [WorkerPool.call, WorkerPool.cancel]
      rw [hflag]
      exact .step (h.lives _ ctx hobj) .cancel
  | task c ctx eff hctx htask =>
    obtain rfl := h.wf.ids c ctx hctx
    refine h.withContext hwf rfl rfl htask.events_contextId htask.calls_concern ?_ ?_
    · exact htask.taskJobs (h.jobs _ ctx hctx)
    · have hflag : (w.pool.calls eff.calls).isCancelled ctx.contextId =
          if eff.ctx.emit = .finished then false else w.pool.isCancelled ctx.contextId := by
        unfold WorkerPool.isCancelled
        rw [htask.calls_cancelled]
        split <;> simp
      rw [hflag]
      -- `close` awaits the task only after it has recorded its visit
      refine .step (h.lives _ ctx hctx) (.task eff (htask.mono (fun _ _ hr => hr.1) ?_))
      intro hawaiting
      obtain ⟨rest, hrecv⟩ := hawaiting
      have hmem := (h.wf.awaited _ rest hrecv).2.1
      exact mem_ofContext.mpr ⟨hmem, rfl⟩
  | close events hnone hrecv =>
    have hquiet : SoloInv ops Res sid
        { w with session :=
          { w.session with closed := true, trace := w.session.trace ++ events } } := by
      have hserving := not_closing_of_serving hrecv
      exact h.quiet (Session.Wf.markClosed (Session.Wf.quiet h.wf hserving.1 hnone)) rfl rfl hnone
    exact hquiet.visit rfl h.wf.table
  | closeNext c rest ctx hrecv hctx hfinished =>
    obtain ⟨hclosed, -, hrest⟩ := h.wf.awaited c rest hrecv
    exact h.visit hclosed fun d hd => hrest d (List.mem_cons_of_mem _ hd)

/-- Every step keeps the invariant. -/
theorem step_soloInv {w w' : Solo F} {a : SoloAct F} (h : SoloInv ops Res sid w)
    (hres : WorkerMeets Res w a) (hstep : w.step ops sid a = some w') :
    SoloInv ops Res sid w' := by
  cases a with
  | exec e =>
    obtain ⟨p, hp, rfl⟩ := Option.map_eq_some_iff.mp hstep
    exact h.exec hp hres
  | sess a =>
    obtain ⟨r, hr, rfl⟩ := Option.map_eq_some_iff.mp hstep
    refine h.move (step_move h.ready ?_ hr)
    -- the outcome of a job is one the worker may return for the chunk the task waits for
    intro c ctx chunk o hctx hemit ho
    obtain ⟨j, hj, -, hmem⟩ := result?_mem ho
    have hjobs := h.jobs c ctx hctx
    rw [h.wf.ids c ctx hctx] at hmem
    simp only [TaskJobs, hemit] at hjobs
    obtain ⟨i, hi, htext, hvoice⟩ := hjobs
    rw [hi, List.mem_singleton] at hmem
    subst hmem
    rw [← htext, ← hvoice]
    exact h.results _ hj

/-- **Refinement**: in every state a run reaches, every context is where its own machine can
be. -/
theorem run_soloInv {n : ℕ+} {acts : List (SoloAct F)} {w : Solo F}
    (hres : StepsMeet (Solo.step ops sid) (WorkerMeets Res) (Solo.init F n) acts)
    (hrun : run (Solo.step ops sid) (Solo.init F n) acts = some w) : SoloInv ops Res sid w :=
  run_inv_of (fun _ _ _ hI hP hs => step_soloInv hI hP hs) hres (init_soloInv n) hrun

/-- The same without any promise of the worker. -/
theorem run_soloInv_any {n : ℕ+} {acts : List (SoloAct F)} {w : Solo F}
    (hrun : run (Solo.step ops sid) (Solo.init F n) acts = some w) :
    SoloInv ops (fun _ _ _ => True) sid w := by
  refine run_soloInv (stepsMeet_of_forall ?_ _ _) hrun
  intro w a w' _
  unfold WorkerMeets
  split <;> simp

end Preservation

/-! ## A session to run

A small instance on which the laws of a session are tried: samples without content, and a
context `x` that asks for `sr` samples a second. -/

def textOfX (transcript : String) (continue_ : Bool) (sr : Int) : IncomingText :=
  { contextId := "x", transcript := transcript, continue_ := continue_
    voice := { mode := "id", id := "F1" }
    outputFormat := { container := "raw", encoding := "pcm_s16le", sampleRate := sr } }

/-- One sample at the native rate. -/
def oneSample : Outcome Unit := .ok { wavF32 := [()], sampleRate := Audio.nativeSr }

/-- A pool with one worker and the session `0` on it. -/
def runX (acts : List (SoloAct Unit)) : Option (Solo Unit) :=
  run (Solo.step silentOps 0) (Solo.init Unit 1) acts

/-- What a run of it ends in, read by evaluation. -/
theorem runX_reads {α : Type} (f : Solo Unit → α) {acts : List (SoloAct Unit)} {w : Solo Unit}
    {a : α} (hrun : runX acts = some w) (hread : (runX acts).map f = some a) : f w = a :=
  Lib.run_reads hrun hread

end SupertonicServer
