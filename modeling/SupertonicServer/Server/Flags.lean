import SupertonicServer.Server.Basic
import SupertonicServer.Session.Life

/-!
# The cancelled set of the pool

A flag is raised by a cancel frame and, for every context in the table, by `close`; it is
taken down by the end of an emit task, once. A context stays in the table when its task has
ended, so a flag can be raised after the one chance to take it down. `noStale_iff` says that
this is all that can go wrong: the set holds only live contexts in every state of a run
exactly when every flag of the run is raised while some context of that id is live.
-/

namespace SupertonicServer

open Wire (IncomingMessage)
open Audio (AudioOps)
open Pool
open Lib (run StepsMeet StatesMeet statesMeet_of_inv)

variable {F : Type}

/-- The session has a context `c` whose emit task has not finished. -/
def Session.Live (s : Session F) (c : String) : Prop :=
  ∃ ctx, s.objs c = some ctx ∧ ctx.emit ≠ .finished

def Server.Live (s : Server F) (c : String) : Prop := ∃ sid, (s.sessions sid).Live c

/-- Every flag belongs to a live context of some session; so without live contexts the set is
empty. -/
structure Server.NoStale (s : Server F) : Prop where
  live : ∀ c ∈ s.pool.cancelled, s.Live c
  empty : (∀ c, ¬ s.Live c) → s.pool.cancelled = ∅

/-- The context a step of the session flags, if any: one the session knows and a cancel frame
names, or one that `close` reaches. -/
def Session.flags (s : Session F) : Action → Option String
  | .handle (.cancel m) =>
    if s.closed then none else (s.get? m.contextId).map fun _ => m.contextId
  | .disconnect => s.contexts.head?
  | .errorSent ok => if ok then none else s.contexts.head?
  | .closeNext =>
    match s.recv with
    | .closing _ rest => rest.head?
    | _ => none
  | _ => none

/-- A step that raises the flag of `c` finds some context `c` live. -/
def CancelsLive (s : Server F) : ServerAct F → Prop
  | .sess sid a => ∀ c, (s.sessions sid).flags a = some c → s.Live c
  | .exec _ => True

/-! ## What a move does to flags and live contexts -/

section Moves

variable {ops : AudioOps F} {Res : Coalescer.Chunk → String → Outcome F → Prop}
  {p : WorkerPool F} {sid : Nat} {s s' : Session F} {calls : List PoolCall}

theorem withContext_live_ne {c d : String} {ctx : Context} {evs : List (Event F)} (hne : d ≠ c) :
    (s.withContext c ctx evs).Live d ↔ s.Live d := by
  unfold Session.Live
  rw [withContext_objs_ne s ctx evs hne]

theorem withContext_live_self {c : String} {ctx : Context} {evs : List (Event F)} :
    (s.withContext c ctx evs).Live c ↔ ctx.emit ≠ .finished := by
  unfold Session.Live
  rw [withContext_objs_self]
  constructor
  · intro hself
    obtain ⟨ctx', h, hlive⟩ := hself
    cases h
    exact hlive
  · exact fun h => ⟨ctx, rfl, h⟩

/-- A context that goes on where it was is as live as it was. -/
theorem withContext_live_same {c d : String} {ctx ctx' : Context} {evs : List (Event F)}
    (hctx : s.objs c = some ctx) (hemit : ctx'.emit = ctx.emit) :
    (s.withContext c ctx' evs).Live d ↔ s.Live d := by
  by_cases hdc : d = c
  · rw [hdc, withContext_live_self, hemit]
    constructor
    · exact fun h => ⟨ctx, hctx, h⟩
    · intro hself
      obtain ⟨ctx₁, h, hlive⟩ := hself
      rw [hctx] at h
      cases h
      exact hlive
  · exact withContext_live_ne hdc

/-- `close` changes no suspension point. -/
theorem visit_live {todo : List String} {d : String} : (s.visit todo).1.Live d ↔ s.Live d := by
  cases todo with
  | nil => exact Iff.rfl
  | cons c rest =>
    unfold Session.visit
    dsimp only
    split
    next => exact Iff.rfl
    next ctx hctx => exact withContext_live_same (s := { s with recv := .closing c rest }) hctx rfl

/-- The flags a step of a session raises, and what it does to live contexts: either it raises
one flag and keeps every context as live as it was, or it raises none, and a context it ends
has no flag afterwards. -/
inductive FlagStep (s s' : Session F) (calls : List PoolCall) : Prop where
  | raises (c : String) (hcalls : calls = [.cancel c]) (hlive : ∀ d, s'.Live d ↔ s.Live d)
  | quiet (hcancel : ∀ c, .cancel c ∉ calls)
      (hcancelled : ∀ (q : WorkerPool F) (d : String), d ∈ (q.calls calls).cancelled →
        d ∈ q.cancelled ∧ (s.Live d → s'.Live d))

/-- An emit task raises no flag. -/
theorem TaskStep.cancels_nothing {flag : Bool} {closing : Prop} {ctx : Context} {eff : Effect F}
    (h : TaskStep ops Res sid flag closing ctx eff) (c : String) : .cancel c ∉ eff.calls := by
  cases h with
  | shipped | chunkSent => simp
  | _ => simp [Context.finish, Context.crash]

/-- The flags `handle` raises are those the state before says. -/
theorem handle_flags {msg : IncomingMessage} {r : Session F × List PoolCall}
    (h : s.handle msg = some r) (c : String) :
    .cancel c ∈ r.2 ↔ s.flags (.handle msg) = some c := by
  unfold Session.handle at h
  by_cases hclosed : s.closed = true
  · rw [if_pos hclosed] at h
    cases h
    cases msg <;> simp [Session.flags, hclosed]
  · rw [if_neg hclosed] at h
    cases hrecv : s.recv <;> rw [hrecv] at h
    case listening =>
      cases msg with
      | parseError e =>
        cases h
        simp [Session.flags]
      | text m =>
        cases h
        simp [Session.flags]
      | cancel m =>
        cases h
        unfold Session.cancel
        cases hctx : s.get? m.contextId with
        | none => simp [Session.flags, hctx]
        | some ctx => simp [Session.flags, hctx, hclosed, eq_comm]
    all_goals exact absurd h (by simp)

/-- The flags a step raises are those its state before says. -/
theorem step_flags {a : Action} {r : Session F × List PoolCall} (hready : p.ready = true)
    (h : s.step ops p sid a = some r) (c : String) :
    .cancel c ∈ r.2 ↔ s.flags a = some c := by
  cases a with
  | handle msg => exact handle_flags h c
  | errorSent ok =>
    simp only [Session.step] at h
    split at h
    next reason hrecv =>
      cases ok <;> cases h
      · rw [Session.close, visit_calls]
        simp [Session.flags]
      · simp [Session.flags]
    next => exact absurd h (by simp)
  | disconnect =>
    simp only [Session.step] at h
    split at h
    next hrecv =>
      cases h
      rw [Session.close, visit_calls]
      simp [Session.flags]
    next => exact absurd h (by simp)
  | closeNext =>
    simp only [Session.step] at h
    split at h
    next d rest hrecv =>
      split at h
      next ctx hctx =>
        split at h
        next hfin =>
          cases h
          rw [visit_calls]
          simp [Session.flags, hrecv]
        next => exact absurd h (by simp)
      next => exact absurd h (by simp)
    next => exact absurd h (by simp)
  | emit d =>
    obtain ⟨ctx, hctx, h⟩ := Option.bind_eq_some_iff.mp h
    obtain ⟨eff, heff, h⟩ := Option.bind_eq_some_iff.mp h
    cases h
    have htask : TaskStep ops (fun _ _ _ => True) sid _ True ctx eff :=
      resume_taskStep hready (fun _ _ _ _ => trivial) heff
    exact iff_of_false (htask.cancels_nothing c) (by simp [Session.flags])
  | sent d exc =>
    obtain ⟨ctx, hctx, h⟩ := Option.bind_eq_some_iff.mp h
    obtain ⟨eff, heff, h⟩ := Option.bind_eq_some_iff.mp h
    cases h
    have htask : TaskStep ops (fun _ _ _ => True) sid _ True ctx eff := sent_taskStep heff
    exact iff_of_false (htask.cancels_nothing c) (by simp [Session.flags])
  | timeout out =>
    simp only [Session.step] at h
    split at h
    next d rest hrecv =>
      obtain ⟨ctx, hctx, h⟩ := Option.bind_eq_some_iff.mp h
      obtain ⟨eff, heff, h⟩ := Option.bind_eq_some_iff.mp h
      cases h
      have htask : TaskStep ops (fun _ _ _ => True) sid false True ctx eff :=
        kill_taskStep trivial heff
      exact iff_of_false (htask.cancels_nothing c) (by simp [Session.flags])
    next => exact absurd h (by simp)

theorem FlagStep.of_nil (h : ∀ d, s.Live d → s'.Live d) : FlagStep s s' [] :=
  .quiet (by simp) fun _ d hd => ⟨hd, h d⟩

theorem FlagStep.visit {todo : List String} {t : Session F}
    (h : ∀ d, t.Live d ↔ s.Live d) : FlagStep s (t.visit todo).1 (t.visit todo).2 := by
  cases todo with
  | nil => exact .of_nil fun d hd => (h d).mpr hd
  | cons c rest =>
    refine .raises c ?_ fun d => visit_live.trans (h d)
    rw [visit_calls]
    rfl

theorem Move.flagStep (h : Move ops Res p sid s s' calls) (hwf : s.Wf) :
    FlagStep s s' calls := by
  cases h with
  | stay | badFrame | errorSent => exact .of_nil fun _ hd => hd
  | text msg hopen hrecv =>
    refine .of_nil fun d hd => ?_
    unfold Session.onText
    rw [get?_eq hwf hopen]
    split
    next hnone =>
      -- the context is new, so `d` is another one
      have hne : d ≠ msg.contextId := by
        intro heq
        obtain ⟨ctx, hctx, -⟩ := hd
        rw [heq, hnone] at hctx
        exact absurd hctx (by simp)
      exact (withContext_live_ne hne).mpr hd
    next ctx hctx =>
      have hsame : (s.withContext msg.contextId (ctx.onText msg) (textEvents ctx msg)).Live d ↔
          s.Live d := withContext_live_same hctx rfl
      exact hsame.mpr hd
  | cancel c ctx hopen hrecv hctx =>
    exact .raises c rfl fun d => withContext_live_same (objs_of_get? hctx) rfl
  | task c ctx eff hctx htask =>
    obtain rfl := hwf.ids c ctx hctx
    refine .quiet htask.cancels_nothing fun q d hd => ?_
    rw [htask.calls_cancelled] at hd
    by_cases hfin : eff.ctx.emit = .finished
    · rw [if_pos hfin, Finset.mem_erase] at hd
      exact ⟨hd.2, (withContext_live_ne hd.1).mpr⟩
    · rw [if_neg hfin] at hd
      refine ⟨hd, fun hlive => ?_⟩
      by_cases hdc : d = ctx.contextId
      · rw [hdc]
        exact withContext_live_self.mpr hfin
      · exact (withContext_live_ne hdc).mpr hlive
  | close events hnone hrecv => exact .visit fun d => Iff.rfl
  | closeNext c rest ctx hrecv hctx hfinished => exact .visit fun d => Iff.rfl

end Moves

/-! ## Runs -/

variable {ops : AudioOps F}

theorem noStale_of_live {s : Server F} (h : ∀ c ∈ s.pool.cancelled, s.Live c) : s.NoStale := by
  refine ⟨h, fun hnone => ?_⟩
  rw [Finset.eq_empty_iff_forall_notMem]
  exact fun c hc => hnone c (h c hc)

/-- A step that raises flags of live contexts only leaves no stale flag. -/
theorem step_noStale {s s' : Server F} {a : ServerAct F} (hwf : s.Wf) (h : s.NoStale)
    (hlive : CancelsLive s a) (hstep : s.step ops a = some s') : s'.NoStale := by
  rcases server_step_cases hstep with ⟨sid, act, r, rfl, hr, rfl⟩ | ⟨e, p, rfl, he, rfl⟩
  · have hflags := (server_move hwf hr).flagStep (hwf.sessions sid)
    -- what is live in the stepping session stays live, so it does in the server
    have hkeep : ∀ d, ((s.sessions sid).Live d → r.1.Live d) → s.Live d →
        Server.Live { pool := s.pool.calls r.2, sessions := Function.update s.sessions sid r.1 }
          d := by
      intro d hd hlived
      obtain ⟨sid', hsid'⟩ := hlived
      refine ⟨sid', ?_⟩
      show (Function.update s.sessions sid r.1 sid').Live d
      by_cases hs : sid' = sid
      · rw [hs, Function.update_self]
        exact hd (by rwa [← hs])
      · rwa [Function.update_of_ne hs]
    refine noStale_of_live fun d hd => ?_
    replace hd : d ∈ (s.pool.calls r.2).cancelled := hd
    cases hflags with
    | raises c hcalls hsame =>
      -- the new flag is that of a live context, and the step ends none
      refine hkeep d (hsame d).mpr ?_
      rw [hcalls] at hd
      rcases Finset.mem_insert.mp hd with rfl | hd
      · exact hlive d ((step_flags hwf.ready hr d).mp (by rw [hcalls]; simp))
      · exact h.live d hd
    | quiet _ hcancelled =>
      -- a flag that is still up was up before, and its context was not ended
      obtain ⟨hold, hd⟩ := hcancelled s.pool d hd
      exact hkeep d hd (h.live d hold)
  · refine noStale_of_live fun d hd => ?_
    replace hd : d ∈ p.cancelled := hd
    rw [exec_cancelled he] at hd
    exact h.live d hd

/-- A step that leaves no stale flag has raised flags of live contexts only. -/
theorem cancelsLive_of_noStale {s s' : Server F} {a : ServerAct F} (hwf : s.Wf)
    (hstep : s.step ops a = some s') (h : s'.NoStale) : CancelsLive s a := by
  rcases server_step_cases hstep with ⟨sid, act, r, rfl, hr, rfl⟩ | ⟨e, p, rfl, he, rfl⟩
  · intro c hc
    rw [← step_flags hwf.ready hr c] at hc
    have hflags := (server_move hwf hr).flagStep (hwf.sessions sid)
    cases hflags with
    | raises c' hcalls hsame =>
      rw [hcalls, List.mem_singleton] at hc
      cases hc
      have hflag : c ∈ (s.pool.calls r.2).cancelled := by
        rw [hcalls]
        exact Finset.mem_insert_self c _
      obtain ⟨sid', hsid'⟩ := h.live c hflag
      replace hsid' : (Function.update s.sessions sid r.1 sid').Live c := hsid'
      refine ⟨sid', ?_⟩
      by_cases hs : sid' = sid
      · rw [hs, Function.update_self] at hsid'
        rw [hs]
        exact (hsame c).mp hsid'
      · rwa [Function.update_of_ne hs] at hsid'
    | quiet hcancel _ => exact absurd hc (hcancel c)
  · trivial

/-- **No stale flags**: in a run of the server with any number of sessions, every state
reached is free of stale flags if and only if every flag the run raises is that of a context
live in some session at that moment. -/
theorem noStale_iff (n : ℕ+) (acts : List (ServerAct F)) :
    StatesMeet (Server.step ops) Server.NoStale (Server.init F n) acts ↔
      StepsMeet (Server.step ops) CancelsLive (Server.init F n) acts := by
  have hwf : ∀ pre s, run (Server.step ops) (Server.init F n) pre = some s → s.Wf :=
    fun pre s hrun => Lib.run_inv (fun _ _ _ h hs => step_serverWf h hs) (init_serverWf n) hrun
  constructor
  · -- the state behind each step is reached, so its flags are those of live contexts
    intro hstates pre a post s s' hsplit hrun hstep
    refine cancelsLive_of_noStale (hwf pre s hrun) hstep ?_
    refine hstates (pre ++ [a]) post s' (by rw [hsplit]; simp) (Lib.run_trans hrun ?_)
    rw [Lib.run_singleton]
    exact hstep
  · intro hsteps
    have hinit : (Server.init F n).Wf ∧ (Server.init F n).NoStale :=
      ⟨init_serverWf n, noStale_of_live fun c hc => absurd hc (Finset.notMem_empty c)⟩
    have hinv := statesMeet_of_inv (I := fun s : Server F => s.Wf ∧ s.NoStale)
      (fun s a s' h hP hs => ⟨step_serverWf h.1 hs, step_noStale h.1 h.2 hP hs⟩) hsteps hinit
    exact fun pre post s hsplit hrun => (hinv pre post s hsplit hrun).2

/-- One session serves `x` to its end and closes. -/
def serveAndClose : List (ServerAct Unit) :=
  [.sess 0 (.handle (.text (textOfX "" false 50))), .sess 0 (.emit "x"), .sess 0 (.emit "x"),
    .sess 0 (.sent "x" none), .sess 0 .disconnect, .sess 0 .closeNext]

/-- `close` flags a context whose task has ended, and the flag stays: every session is closed
and every task has finished, but the set is not empty. -/
theorem flag_left_behind : ∃ s,
    run (Server.step silentOps) (Server.init Unit 1) serveAndClose = some s ∧
    (s.sessions 0).recv = .closed ∧ s.pool.cancelled = {"x"} ∧ ¬ s.Live "x" ∧
    ¬ StatesMeet (Server.step silentOps) Server.NoStale (Server.init Unit 1) serveAndClose := by
  obtain ⟨s, hrun, hclosed, hflags, hdead⟩ : ∃ s,
      run (Server.step silentOps) (Server.init Unit 1) serveAndClose = some s ∧
      (s.sessions 0).recv = .closed ∧ s.pool.cancelled = {"x"} ∧ ¬ s.Live "x" := by
    refine ⟨_, rfl, rfl, by decide +kernel, ?_⟩
    intro hlived
    obtain ⟨sid, ctx, hctx, hlive⟩ := hlived
    cases sid with
    | zero =>
      cases hctx
      exact hlive rfl
    | succ k => exact absurd hctx (by rintro ⟨⟩)
  refine ⟨s, hrun, hclosed, hflags, hdead, fun hstates => hdead ?_⟩
  have hstale := hstates serveAndClose [] s (List.append_nil _).symm hrun
  exact hstale.live "x" (by rw [hflags]; exact Finset.mem_singleton_self _)

end SupertonicServer
