import SupertonicServer.Pool.Share
import SupertonicServer.Server.Basic
import SupertonicServer.Session.Heard
import SupertonicServer.Session.Terminal

/-!
# A session as if it were alone

The pool keeps one set of cancelled ids for all sessions, so a session can find a flag it did
not raise, or miss one it did. Nothing else passes between sessions: as long as the flags a
session reads are its own (`FlagsOwn`), its part of a run of the server (`ServerAct.only`) is
a run of the session alone on a pool of its own, frame for frame (`isolated`).

The proof is a simulation. The pool of the server and the pool of its own hold the same share
for the session; the flags of its own pool are right by the laws of a session alone.
-/

namespace SupertonicServer

open Coalescer (Chunk)
open Wire (IncomingText encodeChunk encodeDone)
open Audio (AudioOps nativeSr)
open Pool
open Lib (run StepsMeet)

variable {F : Type}

/-- Whether the emit task asks `is_cancelled` when it goes on: for every item of the queue, and
when `synthesize` has a result, but not when that raises. -/
def Context.resumeAsks (p : WorkerPool F) (sid : Nat) (ctx : Context) : Bool :=
  match ctx.emit with
  | .atGet => true
  | .inSynth _ =>
    match p.result? ⟨sid, ctx.contextId⟩ with
    | some (.ok _) => true
    | _ => false
  | _ => false

/-- Whether it asks when a send ends: if another frame of the result is left to be sent. -/
def Context.sentAsks (ctx : Context) (exc : Option String) : Bool :=
  match ctx.emit, exc with
  | .inSend _ (_ :: _), none => true
  | _, _ => false

/-- The context whose flag a step of the session reads. -/
def Session.asks (s : Session F) (p : WorkerPool F) (sid : Nat) : Action → Option String
  | .emit c => if (s.objs c).any (Context.resumeAsks p sid) then some c else none
  | .sent c exc => if (s.objs c).any (Context.sentAsks · exc) then some c else none
  | _ => none

/-- Where a step of session `sid` asks for a flag, the answer is what the session itself did:
the flag is up if and only if the session has cancelled or closed the context. -/
def FlagsOwn (sid : Nat) (s : Server F) : ServerAct F → Prop
  | .sess sid' act =>
    sid' = sid → ∀ c ∈ (s.sessions sid).asks s.pool sid act,
      (c ∈ s.pool.cancelled ↔ Stopped c (s.sessions sid).trace)
  | .exec _ => True

instance {c : String} {tr : List (Event F)} [DecidableEq F] : Decidable (Stopped c tr) :=
  inferInstanceAs (Decidable (_ ∨ _))

instance [DecidableEq F] (sid : Nat) (s : Server F) : ∀ a, Decidable (FlagsOwn sid s a)
  | .sess sid' act =>
    inferInstanceAs (Decidable (sid' = sid → ∀ c ∈ (s.sessions sid).asks s.pool sid act,
      (c ∈ s.pool.cancelled ↔ Stopped c (s.sessions sid).trace)))
  | .exec _ => isTrue trivial

/-- The part of session `sid` in a step of the server. -/
def ServerAct.only (sid : Nat) : ServerAct F → List (SoloAct F)
  | .sess sid' a => if sid' = sid then [.sess a] else []
  | .exec e => if e.owner.session = sid then [.exec e] else []

/-! ## One step in two pools -/

/-- The task that asks has not finished. -/
theorem asks_live {s : Session F} {p : WorkerPool F} {sid : Nat} {act : Action} {c : String}
    (h : c ∈ s.asks p sid act) : ∃ ctx, s.objs c = some ctx ∧ ctx.emit ≠ .finished := by
  have hlive : ∀ d (q : Context → Bool), (∀ ctx, q ctx = true → ctx.emit ≠ .finished) →
      c ∈ (if (s.objs d).any q then some d else none) →
      ∃ ctx, s.objs c = some ctx ∧ ctx.emit ≠ .finished := by
    intro d q hq hc
    split at hc
    next hany =>
      obtain rfl : d = c := Option.some.inj hc
      obtain ⟨ctx, hctx, hasks⟩ := (Option.any_eq_true ..).mp hany
      exact ⟨ctx, hctx, hq ctx hasks⟩
    next => exact absurd hc (by simp)
  cases act with
  | emit d =>
    refine hlive d _ (fun ctx hasks hfin => ?_) h
    simp [Context.resumeAsks, hfin] at hasks
  | sent d exc =>
    refine hlive d _ (fun ctx hasks hfin => ?_) h
    simp [Context.sentAsks, hfin] at hasks
  | handle | errorSent | disconnect | closeNext | timeout => exact absurd h (by simp [Session.asks])

section Congruence

variable {p q : WorkerPool F} {sid : Nat} {ctx : Context}

theorem resume_congr (ops : AudioOps F) (hready : p.ready = q.ready)
    (hres : p.result? ⟨sid, ctx.contextId⟩ = q.result? ⟨sid, ctx.contextId⟩)
    (hflag : ctx.resumeAsks p sid = true →
      p.isCancelled ctx.contextId = q.isCancelled ctx.contextId) :
    ctx.resume ops p sid = ctx.resume ops q sid := by
  unfold Context.resume
  unfold Context.resumeAsks at hflag
  cases hemit : ctx.emit with
  | atGet =>
    rw [hemit] at hflag
    simp only [WorkerPool.synthesizeStart, hready, hflag rfl]
  | inSynth chunk =>
    rw [hemit] at hflag
    dsimp only
    rw [← hres]
    cases hout : p.result? ⟨sid, ctx.contextId⟩ with
    | none => rfl
    | some outcome =>
      cases outcome with
      | error message => rfl
      | ok result =>
        rw [hout] at hflag
        simp only [WorkerPool.synthesizeEnd, hflag rfl]
  | created | inSend | inDone | inError | finished => rfl

theorem sent_congr (exc : Option String)
    (hflag : ctx.sentAsks exc = true →
      p.isCancelled ctx.contextId = q.isCancelled ctx.contextId) :
    ctx.sent p exc = ctx.sent q exc := by
  unfold Context.sent
  unfold Context.sentAsks at hflag
  cases hemit : ctx.emit with
  | inSend pcm rest =>
    rw [hemit] at hflag
    cases exc with
    | some message => rfl
    | none =>
      cases rest with
      | nil => rfl
      | cons frame rest =>
        dsimp only
        rw [hflag rfl]
  | created | atGet | inSynth | inDone | inError | finished => rfl

/-- A session cannot tell two pools apart that give it the same results and the same answers
about the contexts it asks for. -/
theorem step_congr (ops : AudioOps F) {s : Session F} (hwf : s.Wf) (hready : p.ready = q.ready)
    (hres : ∀ owner : Owner, owner.session = sid → p.result? owner = q.result? owner)
    {act : Action} (hflag : ∀ c ∈ s.asks p sid act, p.isCancelled c = q.isCancelled c) :
    s.step ops p sid act = s.step ops q sid act := by
  cases act with
  | emit c =>
    simp only [Session.step]
    cases hctx : s.objs c with
    | none => rfl
    | some ctx =>
      obtain rfl := hwf.ids c ctx hctx
      have hsame := resume_congr ops hready (hres ⟨sid, ctx.contextId⟩ rfl) fun hasks =>
        hflag _ (by simp [Session.asks, hctx, hasks])
      simp [hsame]
  | sent c exc =>
    simp only [Session.step]
    cases hctx : s.objs c with
    | none => rfl
    | some ctx =>
      obtain rfl := hwf.ids c ctx hctx
      have hsame : ctx.sent p exc = ctx.sent q exc := sent_congr exc fun hasks =>
        hflag _ (by simp [Session.asks, hctx, hasks])
      simp [hsame]
  | handle | errorSent | disconnect | closeNext | timeout => rfl

end Congruence

/-- A session calls the pool in its own name only. -/
theorem Move.calls_session {ops : AudioOps F} {Res : Chunk → String → Outcome F → Prop}
    {p : WorkerPool F} {sid : Nat} {s s' : Session F} {calls : List PoolCall}
    (h : Move ops Res p sid s s' calls) :
    ∀ k ∈ calls, k.session? = none ∨ k.session? = some sid := by
  have hvisit : ∀ (t : Session F) (todo : List String), ∀ k ∈ (t.visit todo).2,
      k.session? = none ∨ k.session? = some sid := by
    intro t todo k hk
    rw [visit_calls] at hk
    obtain ⟨c, -, rfl⟩ := List.mem_map.mp hk
    exact Or.inl rfl
  cases h with
  | stay | badFrame | errorSent | text => simp
  | cancel c ctx =>
    intro k hk
    exact Or.inl (List.mem_singleton.mp hk ▸ rfl)
  | task c ctx eff hctx htask => exact fun k hk => (htask.calls_concern k hk).session?
  | close events => exact hvisit _ _
  | closeNext c rest => exact hvisit _ _

/-! ## The simulation -/

/-- The session `sid` of the server `s` is the session of `w`, which is alone on its pool. -/
structure Alone (ops : AudioOps F) (sid : Nat) (s : Server F) (w : Solo F) : Prop where
  wf : s.Wf
  inv : SoloInv ops (fun _ _ _ => True) sid w
  session : w.session = s.sessions sid
  workers : s.pool.nWorkers = w.pool.nWorkers
  share : s.pool.share sid = w.pool.share sid
  only : w.pool.Only sid

variable {ops : AudioOps F} {sid : Nat}

theorem init_alone (n : ℕ+) : Alone ops sid (Server.init F n) (Solo.init F n) :=
  { wf := init_serverWf n
    inv := init_soloInv n
    session := rfl
    workers := rfl
    share := rfl
    only := fun j hj => absurd hj (by simp [WorkerPool.jobs, Solo.init, WorkerPool.started]) }

theorem stopped_ofContext {c : String} {tr : List (Event F)} :
    Stopped c (ofContext c tr) ↔ Stopped c tr := by
  simp [Stopped, mem_ofContext, Event.contextId?]

/-- On its own pool a session always reads its own flags. -/
theorem SoloInv.flag_iff {Res : Chunk → String → Outcome F → Prop} {w : Solo F}
    (h : SoloInv ops Res sid w) {c : String} {ctx : Context} (hctx : w.session.objs c = some ctx)
    (hlive : ctx.emit ≠ .finished) :
    w.pool.isCancelled c = true ↔ Stopped c w.session.trace := by
  obtain rfl := h.wf.ids c ctx hctx
  exact ((h.lives _ ctx hctx).flag_iff hlive).trans stopped_ofContext

/-- A step of another session. -/
theorem Alone.other {s : Server F} {w : Solo F} (h : Alone ops sid s w) {sid' : Nat}
    (hne : sid' ≠ sid) {act : Action} {r : Session F × List PoolCall}
    (hr : (s.sessions sid').step ops s.pool sid' act = some r)
    (hwf : Server.Wf { pool := s.pool.calls r.2,
                       sessions := Function.update s.sessions sid' r.1 }) :
    Alone ops sid { pool := s.pool.calls r.2, sessions := Function.update s.sessions sid' r.1 }
      w where
  wf := hwf
  inv := h.inv
  session := by
    rw [h.session]
    exact (Function.update_of_ne hne.symm ..).symm
  workers := (calls_nWorkers _ _).trans h.workers
  share := by
    -- whatever the other session calls, it calls in its own name or for a flag
    refine (calls_share_other fun k hk hown => ?_).trans h.share
    rcases (server_move h.wf hr).calls_session k hk with hk | hk
    · rw [hk] at hown
      exact absurd hown (by simp)
    · rw [hk] at hown
      exact hne (Option.some.inj hown)
  only := h.only

/-- A step of the session itself. -/
theorem Alone.self {s : Server F} {w : Solo F} (h : Alone ops sid s w) {act : Action}
    {r : Session F × List PoolCall} (hr : (s.sessions sid).step ops s.pool sid act = some r)
    (hwf : Server.Wf { pool := s.pool.calls r.2,
                       sessions := Function.update s.sessions sid r.1 })
    (hown : FlagsOwn sid s (.sess sid act)) :
    ∃ w', Solo.step ops sid w (.sess act) = some w' ∧
      Alone ops sid { pool := s.pool.calls r.2, sessions := Function.update s.sessions sid r.1 }
        w' := by
  have hready : s.pool.ready = w.pool.ready := h.wf.ready.trans h.inv.ready.symm
  -- in the server the flag is its own by assumption, on its own pool by `Lives.flag_iff`
  have hflag : ∀ c ∈ (s.sessions sid).asks s.pool sid act,
      s.pool.isCancelled c = w.pool.isCancelled c := by
    intro c hc
    obtain ⟨ctx, hctx, hlive⟩ := asks_live hc
    rw [Bool.eq_iff_iff, isCancelled_iff, hown rfl c hc, ← h.session]
    rw [← h.session] at hctx
    exact (h.inv.flag_iff hctx hlive).symm
  have hsame := step_congr ops (h.wf.sessions sid) hready
    (fun owner howner => result?_share h.share howner) hflag
  rw [hr, ← h.session] at hsame
  have hstep : Solo.step ops sid w (.sess act) =
      some { pool := w.pool.calls r.2, session := r.1 } := by
    show (w.session.step ops w.pool sid act).map _ = _
    rw [← hsame]
    rfl
  refine ⟨_, hstep, ?_⟩
  exact {
    wf := hwf
    inv := step_soloInv (a := .sess act) h.inv trivial hstep
    session := by
      show r.1 = Function.update s.sessions sid r.1 sid
      rw [Function.update_self]
    workers := (calls_nWorkers _ _).trans (h.workers.trans (calls_nWorkers _ _).symm)
    share := calls_share h.share r.2
    only := calls_only h.only (server_move h.wf hr).calls_session }

/-- A step of the executor, seen if it moves a job of the session. -/
theorem Alone.exec {s : Server F} {w : Solo F} (h : Alone ops sid s w) {e : ExecAct F}
    {p : WorkerPool F} (hp : s.pool.exec e = some p) (hwf : Server.Wf { s with pool := p }) :
    ∃ w', run (Solo.step ops sid) w (ServerAct.only sid (.exec e)) = some w' ∧
      Alone ops sid { s with pool := p } w' := by
  by_cases he : e.owner.session = sid
  · obtain ⟨q, hq, hshare⟩ := exec_share hp he h.workers h.share h.only
    have hstep : Solo.step ops sid w (.exec e) = some { w with pool := q } := by
      show (w.pool.exec e).map _ = _
      rw [hq]
      rfl
    refine ⟨{ w with pool := q }, ?_, ?_⟩
    · rw [ServerAct.only, if_pos he, Lib.run_singleton]
      exact hstep
    · exact {
        wf := hwf
        inv := h.inv.exec hq (by unfold WorkerMeets; split <;> simp)
        session := h.session
        workers := (exec_nWorkers hp).trans (h.workers.trans (exec_nWorkers hq).symm)
        share := hshare
        only := exec_only h.only hq }
  · refine ⟨w, ?_, ?_⟩
    · rw [ServerAct.only, if_neg he]
      rfl
    · exact {
        wf := hwf
        inv := h.inv
        session := h.session
        workers := (exec_nWorkers hp).trans h.workers
        share := (exec_share_other hp he).trans h.share
        only := h.only }

theorem step_alone {s s' : Server F} {a : ServerAct F} {w : Solo F} (h : Alone ops sid s w)
    (hown : FlagsOwn sid s a) (hstep : s.step ops a = some s') :
    ∃ w', run (Solo.step ops sid) w (a.only sid) = some w' ∧ Alone ops sid s' w' := by
  have hwf := step_serverWf h.wf hstep
  rcases server_step_cases hstep with ⟨sid', act, r, rfl, hr, rfl⟩ | ⟨e, p, rfl, hp, rfl⟩
  · by_cases hs : sid' = sid
    · subst hs
      rw [ServerAct.only, if_pos rfl, Lib.run_singleton]
      exact h.self hr hwf hown
    · refine ⟨w, ?_, h.other hs hr hwf⟩
      rw [ServerAct.only, if_neg hs]
      rfl
  · exact h.exec hp hwf

/-- Where a session reads flags of its own, its part of the run leads to the same session. -/
theorem run_alone {n : ℕ+} {acts : List (ServerAct F)} {s : Server F}
    (hown : StepsMeet (Server.step ops) (FlagsOwn sid) (Server.init F n) acts)
    (hrun : run (Server.step ops) (Server.init F n) acts = some s) :
    ∃ w, run (Solo.step ops sid) (Solo.init F n) (acts.flatMap (ServerAct.only sid)) = some w ∧
      Alone ops sid s w :=
  Lib.run_simulates (fun _ _ _ _ h hP hs => step_alone h hP hs) hown (init_alone n) hrun

/-- **Isolation**: in every run of the server in which session `sid` reads only flags of its
own, its part of the run is a run of the session alone on a pool of its own, with the same
frames received, the same results and the same history, so the same frames sent. -/
theorem isolated {n : ℕ+} {acts : List (ServerAct F)} {s : Server F}
    (hown : StepsMeet (Server.step ops) (FlagsOwn sid) (Server.init F n) acts)
    (hrun : run (Server.step ops) (Server.init F n) acts = some s) :
    ∃ w, run (Solo.step ops sid) (Solo.init F n) (acts.flatMap (ServerAct.only sid)) = some w ∧
      w.session = s.sessions sid := by
  obtain ⟨w, hw, halone⟩ := run_alone hown hrun
  exact ⟨w, hw, halone.session⟩

/-- Session 1 cancels its context `x`, which takes the flag down again, and its context `y`, twice,
the second time when the context has ended. Then session 0 speaks under the id `x`. -/
def politeRun : List (ServerAct Unit) :=
  [.sess 1 (.handle (.text (textOfX "" true 50))), .sess 1 (.emit "x"),
    .sess 1 (.handle (.cancel ⟨"x"⟩)), .sess 1 (.emit "x"),
    .sess 1 (.handle (.text { textOfX "" true 50 with contextId := "y" })), .sess 1 (.emit "y"),
    .sess 1 (.handle (.cancel ⟨"y"⟩)), .sess 1 (.emit "y"), .sess 1 (.handle (.cancel ⟨"y"⟩)),
    .sess 0 (.handle (.text (textOfX "Hi." false 50))), .sess 0 (.emit "x"), .sess 0 (.emit "x"),
    .exec (.start ⟨0, "x"⟩),
    .exec (.finish ⟨0, "x"⟩ (.ok { wavF32 := List.replicate 883 (), sampleRate := nativeSr })),
    .sess 0 (.emit "x"), .sess 0 (.sent "x" none), .sess 0 (.sent "x" none), .sess 0 (.emit "x"),
    .sess 0 (.sent "x" none)]

/-- The flag of `y` stays up, and session 0 delivers two frames and `done`. -/
theorem isolated_polite : ∃ s w,
    run (Server.step silentOps) (Server.init Unit 1) politeRun = some s ∧
    s.pool.cancelled = {"y"} ∧
    deliveries (s.sessions 0).trace =
      [encodeChunk "x" [0, 0], encodeChunk "x" [0, 0], encodeDone "x"] ∧
    run (Solo.step silentOps 0) (Solo.init Unit 1) (politeRun.flatMap (ServerAct.only 0)) =
      some w ∧ w.session = s.sessions 0 := by
  obtain ⟨s, hrun⟩ := Option.isSome_iff_exists.mp
    (show (run (Server.step silentOps) (Server.init Unit 1) politeRun).isSome = true by
      decide +kernel)
  have hown : StepsMeet (Server.step silentOps) (FlagsOwn 0) (Server.init Unit 1) politeRun := by
    decide +kernel
  obtain ⟨w, hw, hsame⟩ := isolated hown hrun
  have hflags := Lib.run_reads (f := fun s => s.pool.cancelled) (b := {"y"}) hrun
    (by decide +kernel)
  have hsent := Lib.run_reads (f := fun s => deliveries (s.sessions 0).trace)
    (b := [encodeChunk "x" [0, 0], encodeChunk "x" [0, 0], encodeDone "x"]) hrun
    (by decide +kernel)
  exact ⟨s, w, hrun, hflags, hsent, hw, hsame⟩

/-! ## Silenced by another session -/

/-- What the client did to a session: a frame that was handled, or the end of the connection
as it reaches a context. -/
@[simp] def Event.input? : Event F → Option (Event F)
  | .textHandled m => some (.textHandled m)
  | .cancelHandled c => some (.cancelHandled c)
  | .closing c => some (.closing c)
  | _ => none

def inputs (tr : List (Event F)) : List (Event F) := tr.filterMap Event.input?

theorem texts_inputs (tr : List (Event F)) : texts (inputs tr) = texts tr := by
  unfold texts inputs
  rw [List.filterMap_filterMap]
  congr 1
  funext e
  cases e <;> rfl

theorem stopped_inputs {c : String} {tr : List (Event F)} :
    Stopped c (inputs tr) ↔ Stopped c tr := by
  have hmem : ∀ e : Event F, e.input? = some e → (e ∈ inputs tr ↔ e ∈ tr) := by
    intro e he
    constructor
    · intro hin
      obtain ⟨e', he', hee⟩ := List.mem_filterMap.mp hin
      cases e' with
      | textHandled | cancelHandled | closing =>
        cases hee
        exact he'
      | _ => exact absurd hee (by simp)
    · exact fun hin => List.mem_filterMap.mpr ⟨e, hin, he⟩
  unfold Stopped
  rw [hmem _ rfl, hmem _ rfl]

/-- The frames sent for one context are among those of the session. -/
theorem deliveries_ofContext (c : String) (tr : List (Event F)) :
    (deliveries (ofContext c tr)).Sublist (deliveries tr) :=
  List.filter_sublist.filterMap _

theorem texts_ofContext (c : String) (tr : List (Event F)) :
    texts (ofContext c tr) = (texts tr).filter fun m => m.contextId = c := by
  unfold texts ofContext
  rw [List.filterMap_filter, List.filter_filterMap]
  congr 1
  funext e
  cases e with
  | textHandled m =>
    by_cases hm : m.contextId = c
    · simp [Event.contextId?, Option.filter, hm]
    · simp [Event.contextId?, Option.filter, hm]
  | _ => simp

/-- A context that was never stopped and said `done` has shipped its whole utterance. -/
theorem SoloInv.done_shipped {Res : Chunk → String → Outcome F → Prop} {w : Solo F}
    (hinv : SoloInv ops Res sid w) {c : String} {ctx : Context}
    (hctx : w.session.objs c = some ctx) (hstop : ¬ Stopped c w.session.trace)
    {pre post : List IncomingText} {m : IncomingText}
    (htexts : texts (ofContext c w.session.trace) = pre ++ m :: post)
    (hpre : ∀ x ∈ pre, x.continue_ = true) (hm : m.continue_ = false)
    (hdone : encodeDone c ∈ deliveries (ofContext c w.session.trace)) :
    ∃ R : List (Shipment ops ctx.outputSr), R.map Shipment.chunk = spokenChunks (pre ++ [m]) ∧
      syntheses (ofContext c w.session.trace) = R.map Shipment.record ∧
      deliveries (ofContext c w.session.trace) = R.flatMap (Shipment.sent c) ++ [encodeDone c] := by
  obtain rfl := hinv.wf.ids c ctx hctx
  have hlives := hinv.lives _ ctx hctx
  obtain ⟨R, hahead, -, hsyn, hdel⟩ := hlives.told.story.completed hdone
  refine ⟨R, ?_, hsyn, hdel⟩
  obtain ⟨q, hq⟩ := textRun_first_final post hpre hm
  have hputs : puts (ofContext ctx.contextId w.session.trace) =
      (spokenChunks (pre ++ [m])).map some ++ none :: q := by
    rw [← hq, ← htexts]
    exact hlives.heard.queued fun h => hstop (stopped_ofContext.mp h)
  replace hahead : aheadOfEof (puts (ofContext ctx.contextId w.session.trace)) =
      R.map Shipment.chunk := hahead
  apply hahead.symm.trans
  rw [hputs, aheadOfEof_append]
  exact List.append_nil _

/-- A session alone that was sent one utterance in two frames, and no cancel, says `done` only
behind audio. -/
theorem one_utterance_is_heard {acts : List (SoloAct Unit)} {w : Solo Unit}
    (hworker : StepsMeet (Solo.step silentOps 0) (WorkerMeets fun _ _ o => o = oneSample)
      (Solo.init Unit 1) acts)
    (hrun : run (Solo.step silentOps 0) (Solo.init Unit 1) acts = some w)
    (hinputs : inputs w.session.trace =
      [.textHandled (textOfX "Hi." true 50), .textHandled (textOfX "" false 50)]) :
    deliveries w.session.trace ≠ [encodeDone "x"] := by
  intro hsilent
  have hinv := run_soloInv hworker hrun
  have htexts : texts (ofContext "x" w.session.trace) =
      [textOfX "Hi." true 50] ++ textOfX "" false 50 :: [] := by
    rw [texts_ofContext, ← texts_inputs, hinputs]
    rfl
  have hstop : ¬ Stopped "x" w.session.trace := by
    rw [← stopped_inputs, hinputs]
    simp [Stopped]
  -- the answer was given for the context `x`
  obtain ⟨e, he, hid, hdone⟩ : ∃ e ∈ w.session.trace, e.contextId? = some "x" ∧
      e.delivered? = some (encodeDone "x") := by
    have hmem : encodeDone "x" ∈ deliveries w.session.trace := by rw [hsilent]; simp
    obtain ⟨e, he, hee⟩ := List.mem_filterMap.mp hmem
    cases e with
    | delivered f =>
      cases hee
      exact ⟨_, he, rfl, rfl⟩
    | _ => exact absurd hee (by simp)
  obtain ⟨ctx, hctx⟩ := Option.ne_none_iff_exists'.mp (hinv.wf.trace e he "x" hid)
  have hlives := hinv.lives _ ctx hctx
  obtain ⟨R, hchunks, hsyn, hdel⟩ := hinv.done_shipped hctx hstop htexts (by simp [textOfX]) rfl
    (List.mem_filterMap.mpr ⟨e, mem_ofContext.mpr ⟨he, hid⟩, hdone⟩)
  have hrate : ctx.outputSr = 50 := by
    obtain ⟨first, hhead, -, hrate⟩ := hlives.heard.first
    replace hhead : (texts (ofContext "x" w.session.trace)).head? = some first := hhead
    rw [htexts] at hhead
    cases hhead
    exact hrate
  -- its one shipment holds frames, and they are among those of the session
  obtain ⟨s, rfl⟩ : ∃ s, R = [s] := by
    apply List.length_eq_one_iff.mp
    rw [← List.length_map (f := Shipment.chunk), hchunks]
    decide +kernel
  have hresult : s.result = ⟨[()], nativeSr⟩ := by
    have hres := hlives.syntheses (s.chunk, .ok s.result) (by
      show (s.chunk, Except.ok s.result) ∈ syntheses (ofContext "x" w.session.trace)
      rw [hsyn]
      exact List.mem_singleton_self _)
    exact Except.ok.inj hres
  have hframes : s.frames = [[0, 0]] := by
    have hok := s.ok
    generalize s.frames = frames at hok ⊢
    rw [hresult, hrate] at hok
    exact Except.ok.inj (hok.symm.trans (by decide +kernel))
  have hsub := deliveries_ofContext "x" w.session.trace
  rw [hdel, hsilent] at hsub
  have hlen := hsub.length_le
  simp [Shipment.sent, hframes] at hlen

/-- Another session cancels its own context `x` before the emit task of this session has taken
its chunk, and its emit task ends, and takes the flag down, before this session is told to
flush. -/
def silencingRun : List (ServerAct Unit) :=
  [.sess 1 (.handle (.text (textOfX "" true 50))), .sess 1 (.emit "x"),
    .sess 0 (.handle (.text (textOfX "Hi." true 50))), .sess 1 (.handle (.cancel ⟨"x"⟩)),
    .sess 0 (.emit "x"), .sess 0 (.emit "x"), .sess 1 (.emit "x"),
    .sess 0 (.handle (.text (textOfX "" false 50))), .sess 0 (.emit "x"), .sess 0 (.sent "x" none)]

/-- The session says `done` without a sound. Alone on the pool it never does, whatever the
interleaving, for the same frames received and the same results. -/
theorem silenced_by_another : ∃ s,
    run (Server.step silentOps) (Server.init Unit 1) silencingRun = some s ∧
    inputs (s.sessions 0).trace =
      [.textHandled (textOfX "Hi." true 50), .textHandled (textOfX "" false 50)] ∧
    deliveries (s.sessions 0).trace = [encodeDone "x"] ∧
    ∀ acts w, StepsMeet (Solo.step silentOps 0) (WorkerMeets fun _ _ o => o = oneSample)
        (Solo.init Unit 1) acts →
      run (Solo.step silentOps 0) (Solo.init Unit 1) acts = some w →
      inputs w.session.trace = inputs (s.sessions 0).trace →
      deliveries w.session.trace ≠ deliveries (s.sessions 0).trace := by
  obtain ⟨s, hrun⟩ := Option.isSome_iff_exists.mp
    (show (run (Server.step silentOps) (Server.init Unit 1) silencingRun).isSome = true by
      decide +kernel)
  have hinputs := Lib.run_reads (f := fun s => inputs (s.sessions 0).trace)
    (b := [.textHandled (textOfX "Hi." true 50), .textHandled (textOfX "" false 50)]) hrun
    (by decide +kernel)
  have hdone := Lib.run_reads (f := fun s => deliveries (s.sessions 0).trace)
    (b := [encodeDone "x"]) hrun (by decide +kernel)
  refine ⟨s, hrun, hinputs, hdone, fun acts w hworker hw hsame => ?_⟩
  rw [hdone]
  exact one_utterance_is_heard hworker hw (hsame.trans hinputs)

end SupertonicServer
