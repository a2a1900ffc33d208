import SupertonicServer.Server.Rest
import SupertonicServer.Session.Heard

/-!
# Results come back to where they belong

The pool carries a text and a voice to a worker and the outcome back to the emit task that
asked, while other tasks, sessions and threads do the same. Nothing gets mixed up: if every
job ends with an outcome that `Res` allows for its text and its voice, then every outcome an
emit task takes is one that `Res` allows for the chunk it handed in, in the voice that the
first text frame of its context named (`run_results`). Neither the flags nor the ids of the
contexts matter for this, so nothing is asked of other sessions.
-/

namespace SupertonicServer

open Coalescer (Chunk)
open Wire (IncomingText)
open Audio (AudioOps)
open Pool
open Lib (run StepsMeet)

variable {F : Type} {ops : AudioOps F} {Res : Chunk → String → Outcome F → Prop} {sid : Nat}

/-- A context speaks in the voice of its first text frame, and what it took from the pool are
outcomes for that voice. -/
structure Session.Spoken (Res : Chunk → String → Outcome F → Prop) (s : Session F) : Prop where
  voice : ∀ c ctx, s.objs c = some ctx → ∃ first,
    (texts (ofContext c s.trace)).head? = some first ∧ ctx.voiceId = first.voice.id
  outcomes : ∀ c ctx, s.objs c = some ctx →
    ∀ x ∈ syntheses (ofContext c s.trace), Res x.1 ctx.voiceId x.2

section Spoken

variable {s s' : Session F} {p : WorkerPool F} {calls : List PoolCall}

/-- A context of the session changes, or is born, with events of its own. -/
theorem Session.Spoken.grow (h : s.Spoken Res) {c : String} {ctx : Context}
    {evs : List (Event F)} (hobjs : s'.objs = Function.update s.objs c (some ctx))
    (htrace : s'.trace = s.trace ++ evs) (hevs : ∀ e ∈ evs, e.contextId? = some c)
    (hvoice : ∃ first, (texts (ofContext c s.trace) ++ texts evs).head? = some first ∧
      ctx.voiceId = first.voice.id)
    (houtcomes : ∀ x ∈ syntheses (ofContext c s.trace) ++ syntheses evs, Res x.1 ctx.voiceId x.2) :
    s'.Spoken Res := by
  have hself : ofContext c s'.trace = ofContext c s.trace ++ evs := by
    rw [htrace, ofContext_append, ofContext_self hevs]
  have hother : ∀ d, d ≠ c → ofContext d s'.trace = ofContext d s.trace := by
    intro d hd
    have hnone : ofContext d evs = [] := by
      refine ofContext_other fun e he heq => ?_
      rw [hevs e he] at heq
      exact hd (Option.some.inj heq).symm
    rw [htrace, ofContext_append, hnone, List.append_nil]
  constructor
  · intro d ctx' hd
    rw [hobjs] at hd
    rcases update_some_cases hd with ⟨rfl, rfl⟩ | ⟨hdc, hd⟩
    · rw [hself, texts_append]
      exact hvoice
    · rw [hother d hdc]
      exact h.voice d ctx' hd
  · intro d ctx' hd
    rw [hobjs] at hd
    rcases update_some_cases hd with ⟨rfl, rfl⟩ | ⟨hdc, hd⟩
    · rw [hself, syntheses_append]
      exact houtcomes
    · rw [hother d hdc]
      exact h.outcomes d ctx' hd

/-- A context that was there keeps its voice. -/
theorem Session.Spoken.update (h : s.Spoken Res) (evs : List (Event F)) {c : String}
    {ctx ctx' : Context} (hctx : s.objs c = some ctx) (hsame : ctx'.voiceId = ctx.voiceId)
    (hobjs : s'.objs = Function.update s.objs c (some ctx'))
    (htrace : s'.trace = s.trace ++ evs) (hevs : ∀ e ∈ evs, e.contextId? = some c)
    (houtcomes : ∀ x ∈ syntheses evs, Res x.1 ctx.voiceId x.2) : s'.Spoken Res := by
  refine h.grow hobjs htrace hevs ?_ ?_
  · obtain ⟨first, hfirst, hvoice⟩ := h.voice c ctx hctx
    refine ⟨first, ?_, hsame.trans hvoice⟩
    rw [List.head?_append, hfirst]
    rfl
  · intro x hx
    rw [hsame]
    exact (List.mem_append.mp hx).elim (h.outcomes c ctx hctx x) (houtcomes x)

/-- Events of no context change nothing. -/
theorem Session.Spoken.quiet (h : s.Spoken Res) {evs : List (Event F)}
    (hobjs : s'.objs = s.objs) (htrace : s'.trace = s.trace ++ evs)
    (hnone : ∀ e ∈ evs, e.contextId? = none) : s'.Spoken Res := by
  have hsame : ∀ c, ofContext c s'.trace = ofContext c s.trace := by
    intro c
    have hno : ofContext c evs = [] := by
      refine ofContext_other fun e he heq => ?_
      rw [hnone e he] at heq
      exact absurd heq (by simp)
    rw [htrace, ofContext_append, hno, List.append_nil]
  constructor
  · intro c ctx hctx
    rw [hsame]
    exact h.voice c ctx (hobjs ▸ hctx)
  · intro c ctx hctx
    rw [hsame]
    exact h.outcomes c ctx (hobjs ▸ hctx)

theorem Session.Spoken.visit (h : s.Spoken Res) (todo : List String) :
    (s.visit todo).1.Spoken Res := by
  cases todo with
  | nil => exact ⟨h.voice, h.outcomes⟩
  | cons c rest =>
    unfold Session.visit
    dsimp only
    split
    next => exact ⟨h.voice, h.outcomes⟩
    next ctx hctx =>
      exact h.update [.closing c, .put c none] hctx (by rfl) rfl rfl
        (by simp [Event.contextId?]) (by simp)

/-- Every move keeps it. -/
theorem Session.Spoken.move (h : s.Spoken Res) (hwf : s.Wf)
    (hmove : Move ops Res p sid s s' calls) : s'.Spoken Res := by
  cases hmove with
  | stay => exact h
  | badFrame | errorSent => exact h.quiet rfl rfl (by simp [Event.contextId?])
  | text msg hopen hrecv =>
    unfold Session.onText
    rw [get?_eq hwf hopen]
    split
    next hnone =>
      -- a new context has no history, and takes its voice from this frame
      have hempty : ofContext msg.contextId s.trace = [] := by
        refine ofContext_other fun e he heq => ?_
        exact hwf.trace e he _ heq hnone
      refine h.grow rfl rfl (textEvents_contextId _ msg) ⟨msg, ?_, rfl⟩ ?_
      · rw [hempty, (textEvents_read _ msg).2.2.2]
        rfl
      · rw [hempty, (textEvents_read _ msg).2.1]
        simp
    next ctx hctx =>
      refine h.update _ hctx (by rfl) rfl rfl (textEvents_contextId ctx msg) ?_
      rw [(textEvents_read ctx msg).2.1]
      simp
  | cancel c ctx hopen hrecv hctx =>
    exact h.update [.cancelHandled c, .put c none] (objs_of_get? hctx) (by rfl) rfl rfl
      (by simp [Event.contextId?]) (by simp)
  | task c ctx eff hctx htask =>
    obtain ⟨q, pc, heff⟩ := htask.keeps
    obtain rfl := hwf.ids c ctx hctx
    exact h.update _ hctx (by rw [heff]) rfl rfl htask.events_contextId
      fun x hx => (htask.syntheses x hx).1
  | close events hnone =>
    have hquiet : Session.Spoken Res { s with closed := true, trace := s.trace ++ events } :=
      h.quiet rfl rfl hnone
    exact hquiet.visit s.contexts
  | closeNext c rest => exact h.visit rest

end Spoken

/-! ## The server -/

/-- A job that ends, ends as `Res` allows for its text and its voice. -/
def JobsMeet (Res : Chunk → String → Outcome F → Prop) (s : Server F) : ServerAct F → Prop
  | .exec (.finish owner o) => ∀ j, s.pool.running.find? (fun j => j.owner = owner) = some j →
      Res j.text j.voiceName o
  | _ => True

structure Server.Results (Res : Chunk → String → Outcome F → Prop) (s : Server F) : Prop where
  resolved : ∀ r ∈ s.pool.resolved, Res r.1.text r.1.voiceName r.2
  sessions : ∀ sid, (s.sessions sid).Spoken Res

theorem init_results (n : ℕ+) : (Server.init F n).Results Res where
  resolved r hr := absurd hr List.not_mem_nil
  sessions _ :=
    { voice := fun c ctx h => absurd h (by simp [Server.init, Session.init])
      outcomes := fun c ctx h => absurd h (by simp [Server.init, Session.init]) }

/-- What an emit task finds in the pool is the outcome of the job it handed in. -/
theorem result_of_own {s : Server F} (hin : s.InStep)
    (hresolved : ∀ r ∈ s.pool.resolved, Res r.1.text r.1.voiceName r.2) {c : String}
    {ctx : Context} {chunk : Chunk} {o : Outcome F} (hid : ctx.contextId = c)
    (hctx : (s.sessions sid).objs c = some ctx) (hemit : ctx.emit = .inSynth chunk)
    (ho : s.pool.result? ⟨sid, ctx.contextId⟩ = some o) : Res chunk ctx.voiceId o := by
  subst hid
  have hjobs := (hin sid).jobs _ ctx hctx
  simp only [TaskJobs, hemit] at hjobs
  obtain ⟨j, hj, rfl, hvoice⟩ := hjobs
  obtain ⟨i, hi, -, hmem⟩ := result?_mem ho
  -- the task has one job
  rw [hj, List.mem_singleton] at hmem
  rw [← hvoice, ← hmem]
  exact hresolved (i, o) hi

theorem step_results {s s' : Server F} {a : ServerAct F} (hs : s.Sound) (h : s.Results Res)
    (hmeets : JobsMeet Res s a) (hstep : s.step ops a = some s') : s'.Results Res := by
  rcases server_step_cases hstep with ⟨sid, act, r, -, hr, rfl⟩ | ⟨e, p, rfl, hp, rfl⟩
  · have hmove : Move ops Res s.pool sid (s.sessions sid) r.1 r.2 :=
      step_move hs.wf.ready (fun c ctx chunk o hctx hemit ho =>
        result_of_own hs.inStep h.resolved ((hs.wf.sessions sid).ids c ctx hctx) hctx hemit ho) hr
    constructor
    · intro x hx
      exact h.resolved x (mem_calls_resolved hx)
    · intro sid'
      show (Function.update s.sessions sid r.1 sid').Spoken Res
      by_cases hsid : sid' = sid
      · subst hsid
        rw [Function.update_self]
        exact (h.sessions sid').move (hs.wf.sessions sid') hmove
      · rw [Function.update_of_ne hsid]
        exact h.sessions sid'
  · refine ⟨?_, h.sessions⟩
    rcases exec_cases hp with ⟨_, _, _, rfl, _, _, _, rfl⟩ | ⟨owner, o, j, rfl, _, _, hfind, rfl⟩
    · exact h.resolved
    · intro x hx
      rcases List.mem_append.mp hx with hx | hx
      · exact h.resolved x hx
      · rw [List.mem_singleton.mp hx]
        exact hmeets j hfind

/-- **Every outcome comes back to the chunk and the voice it was made for**, in every run of
the server whose jobs end as `Res` allows. -/
theorem run_results {n : ℕ+} {acts : List (ServerAct F)} {s : Server F}
    (hmeets : StepsMeet (Server.step ops) (JobsMeet Res) (Server.init F n) acts)
    (hrun : run (Server.step ops) (Server.init F n) acts = some s) : s.Results Res := by
  have hboth : s.Sound ∧ s.Results Res :=
    Lib.run_inv_of (I := fun s : Server F => s.Sound ∧ s.Results Res)
      (fun _ _ _ h hm hs => ⟨step_sound h.1 hs, step_results h.1 h.2 hm hs⟩) hmeets
      ⟨init_sound n, init_results n⟩ hrun
  exact hboth.2

end SupertonicServer
