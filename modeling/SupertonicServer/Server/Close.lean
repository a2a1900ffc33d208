import SupertonicServer.Server.Basic
import SupertonicServer.Session.Life

/-!
# Close is final

`close` visits the contexts of a session one after another, and while it waits for one emit
task those of the contexts it has not come to yet go on. `CloseStage` says how far it is: a
context whose task is still running is the one awaited or one still to be visited. When the
last one is past there is none left, and a session without a running task takes no step.
-/

namespace SupertonicServer

open Coalescer (Chunk)
open Wire (IncomingMessage IncomingText)
open Audio (AudioOps)
open Pool
open Lib (run run_inv)

variable {F : Type}

/-- How far a session is with closing. -/
inductive CloseStage (s : Session F) : Prop where
  | serving (hopen : s.closed = false)
      (hrecv : s.recv = .listening ∨ ∃ reason, s.recv = .sendingError reason)
  | closing (c : String) (rest : List String) (hrecv : s.recv = .closing c rest)
      (hclosed : s.closed = true)
      (hpast : ∀ d ctx, s.objs d = some ctx → ctx.emit = .finished ∨ d ∈ c :: rest)
  | closed (hrecv : s.recv = .closed) (hclosed : s.closed = true) (htable : s.contexts = [])
      (hended : ∀ d ctx, s.objs d = some ctx → ctx.emit = .finished)

theorem onText_recv (s : Session F) (msg : IncomingText) : (s.onText msg).recv = s.recv := by
  unfold Session.onText
  split <;> rfl

/-- `close` comes to the contexts `todo`, which are all it has left. -/
theorem CloseStage.visit {s : Session F} (hclosed : s.closed = true) {todo : List String}
    (hpast : ∀ d ctx, s.objs d = some ctx → ctx.emit = .finished ∨ d ∈ todo) :
    CloseStage (s.visit todo).1 := by
  cases todo with
  | nil =>
    refine .closed rfl hclosed rfl ?_
    intro d ctx hd
    rcases hpast d ctx hd with h | h
    · exact h
    · exact absurd h List.not_mem_nil
  | cons c rest =>
    unfold Session.visit
    dsimp only
    split
    next => exact .closing c rest rfl hclosed hpast
    next ctx hctx =>
      -- the flag and the EOF do not move the emit task
      refine .closing c rest rfl hclosed ?_
      intro d ctx' hd
      rcases update_some_cases hd with ⟨rfl, -⟩ | ⟨-, hd⟩
      · exact Or.inr List.mem_cons_self
      · exact hpast d ctx' hd

variable {ops : AudioOps F} {Res : Chunk → String → Outcome F → Prop} {p : WorkerPool F}
  {sid : Nat} {s s' : Session F} {calls : List PoolCall}

/-- Every move keeps the stage, or takes `close` one context further. -/
theorem CloseStage.move (h : CloseStage s) (hwf : s.Wf) (hmove : Move ops Res p sid s s' calls) :
    CloseStage s' := by
  cases hmove with
  | stay => exact h
  | badFrame reason hopen hrecv => exact .serving hopen (Or.inr ⟨reason, rfl⟩)
  | errorSent reason hrecv =>
    cases h with
    | serving hopen _ => exact .serving hopen (Or.inl rfl)
    | closing c rest hclosing => exact nomatch hrecv.symm.trans hclosing
    | closed hclosed => exact nomatch hrecv.symm.trans hclosed
  | text msg hopen hrecv =>
    refine .serving ((onText_closed s msg).trans hopen) (Or.inl ?_)
    rw [onText_recv, hrecv]
  | cancel c ctx hopen hrecv hctx => exact .serving hopen (Or.inl hrecv)
  | task c ctx eff hctx htask =>
    cases h with
    | serving hopen hrecv => exact .serving hopen hrecv
    | closing c' rest hrecv hclosed hpast =>
      refine .closing c' rest hrecv hclosed ?_
      intro d ctx' hd
      rcases update_some_cases hd with ⟨rfl, -⟩ | ⟨-, hd⟩
      · -- a task that moves had not finished, so its context is one of those left
        exact Or.inr ((hpast d ctx hctx).resolve_left htask.live)
      · exact hpast d ctx' hd
    | closed hrecv hclosed htable hended => exact absurd (hended c ctx hctx) htask.live
  | close events hnone hrecv =>
    cases h with
    | serving hopen _ =>
      apply CloseStage.visit rfl
      intro d ctx hd
      exact Or.inr (hwf.complete hopen d (by rw [show s.objs d = some ctx from hd]; simp))
    | closing c rest hclosing => exact absurd hclosing ((not_closing_of_serving hrecv).1 c rest)
    | closed hclosed => exact absurd hclosed (not_closing_of_serving hrecv).2
  | closeNext c rest ctx hrecv hctx hfinished =>
    cases h with
    | serving hopen _ =>
      rw [(hwf.awaited c rest hrecv).1] at hopen
      exact absurd hopen (by simp)
    | closing c' rest' hrecv' hclosed hpast =>
      obtain ⟨rfl, rfl⟩ := RecvPc.closing.inj (hrecv.symm.trans hrecv')
      apply CloseStage.visit hclosed
      intro d ctx' hd
      rcases hpast d ctx' hd with h | h
      · exact Or.inl h
      · rcases List.mem_cons.mp h with rfl | h
        · -- the awaited task has finished
          obtain rfl : ctx = ctx' := Option.some.inj (hctx.symm.trans hd)
          exact Or.inl hfinished
        · exact Or.inr h
    | closed hclosed => exact nomatch hrecv.symm.trans hclosed

/-- A closed session is where it stays. -/
theorem CloseStage.final (h : CloseStage s) (hrecv : s.recv = .closed)
    (hmove : Move ops Res p sid s s' calls) : s' = s := by
  cases h with
  | serving hopen hserving => exact absurd hrecv (not_closing_of_serving hserving).2
  | closing c rest hclosing => exact nomatch hrecv.symm.trans hclosing
  | closed _ hclosed htable hended =>
    cases hmove with
    | stay => rfl
    | badFrame reason hopen | text msg hopen | cancel c ctx hopen =>
      rw [hclosed] at hopen
      exact absurd hopen (by simp)
    | errorSent reason hsending => exact nomatch hrecv.symm.trans hsending
    | task c ctx eff hctx htask => exact absurd (hended c ctx hctx) htask.live
    | close events hnone hserving => exact absurd hrecv (not_closing_of_serving hserving).2
    | closeNext c rest ctx hclosing => exact nomatch hrecv.symm.trans hclosing

/-! ## Runs of the server -/

/-- Every session of the server is at a stage of closing. -/
def Server.CloseStages (s : Server F) : Prop := ∀ sid, CloseStage (s.sessions sid)

theorem step_closeStages {s s' : Server F} {a : ServerAct F} (hwf : s.Wf)
    (h : s.CloseStages) (hstep : s.step ops a = some s') : s'.CloseStages := by
  intro sid
  obtain ⟨calls, hmove⟩ := step_session hwf hstep sid
  exact (h sid).move (hwf.sessions sid) hmove

/-- A step of the server leaves a closed session alone. -/
theorem step_closedSession {s s' : Server F} {a : ServerAct F} (hwf : s.Wf)
    (h : s.CloseStages) {sid : Nat} (hrecv : (s.sessions sid).recv = .closed)
    (hstep : s.step ops a = some s') : s'.sessions sid = s.sessions sid := by
  obtain ⟨calls, hmove⟩ := step_session hwf hstep sid
  exact (h sid).final hrecv hmove

theorem run_closeStages {n : ℕ+} {acts : List (ServerAct F)} {s : Server F}
    (hrun : run (Server.step ops) (Server.init F n) acts = some s) : s.Wf ∧ s.CloseStages := by
  refine run_inv (I := fun s : Server F => s.Wf ∧ s.CloseStages) ?_ ?_ hrun
  · intro s a s' h hstep
    exact ⟨step_serverWf h.1 hstep, step_closeStages h.1 h.2 hstep⟩
  · exact ⟨init_serverWf n, fun sid => .serving rfl (Or.inl rfl)⟩

/-- **Close is final**: when `close` of a session has returned, every emit task of the session
has finished and its table is empty, no later run changes anything of the session, what it
sends included, and a later frame is ignored. -/
theorem close_final {n : ℕ+} {acts : List (ServerAct F)} {s : Server F} {sid : Nat}
    (hrun : run (Server.step ops) (Server.init F n) acts = some s)
    (hreturned : (s.sessions sid).recv = .closed) :
    (∀ c ctx, (s.sessions sid).objs c = some ctx → ctx.emit = .finished) ∧
    (s.sessions sid).contexts = [] ∧
    (∀ later s', run (Server.step ops) s later = some s' →
      s'.sessions sid = s.sessions sid) ∧
    ∀ msg, (s.sessions sid).handle msg = some (s.sessions sid, []) := by
  obtain ⟨hwf, hstages⟩ := run_closeStages hrun
  have hlater : ∀ later s', run (Server.step ops) s later = some s' →
      s'.sessions sid = s.sessions sid := by
    intro later s' hlater
    have hinv := run_inv (I := fun t : Server F =>
      (t.Wf ∧ t.CloseStages) ∧ t.sessions sid = s.sessions sid) ?_ ⟨⟨hwf, hstages⟩, rfl⟩ hlater
    · exact hinv.2
    · intro t a t' h hstep
      obtain ⟨⟨htwf, htstages⟩, hsame⟩ := h
      have hrecv : (t.sessions sid).recv = .closed := by rw [hsame]; exact hreturned
      refine ⟨⟨step_serverWf htwf hstep, step_closeStages htwf htstages hstep⟩, ?_⟩
      rw [step_closedSession htwf htstages hrecv hstep, hsame]
  cases hstages sid with
  | serving hopen hserving => exact absurd hreturned (not_closing_of_serving hserving).2
  | closing c rest hclosing => exact nomatch hreturned.symm.trans hclosing
  | closed _ hclosed htable hended =>
    refine ⟨hended, htable, hlater, ?_⟩
    intro msg
    unfold Session.handle
    rw [if_pos hclosed]

/-- A client asks for one utterance and disconnects while its chunk is being synthesized; the
emit task outlives the patience of `close` and is cancelled. -/
def closedInSynth : List (ServerAct Unit) :=
  [.sess 0 (.handle (.text (textOfX "Hi." false 50))), .sess 0 (.emit "x"), .sess 0 (.emit "x"),
    .exec (.start ⟨0, "x"⟩), .sess 0 .disconnect, .sess 0 (.timeout false), .sess 0 .closeNext]

theorem close_final_in_synth : ∃ s,
    run (Server.step silentOps) (Server.init Unit 1) closedInSynth = some s ∧
    (s.sessions 0).recv = .closed ∧ (s.sessions 0).contexts = [] := by
  obtain ⟨s, hrun, hreturned⟩ : ∃ s,
      run (Server.step silentOps) (Server.init Unit 1) closedInSynth = some s ∧
      (s.sessions 0).recv = .closed := ⟨_, rfl, rfl⟩
  exact ⟨s, hrun, hreturned, (close_final hrun hreturned).2.1⟩

end SupertonicServer
