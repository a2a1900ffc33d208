import Mathlib.Algebra.BigOperators.Group.Finset.Basic
import SupertonicServer.Server.Rest

/-!
# The server comes to rest

Inner steps go on for ever nowhere: between two frames from its clients the server comes to
rest under every schedule. What goes down is a weight of the work that is left, items in
queues, jobs in the pool, contexts `close` still has to visit; where a step leaves it, it
sends one of the PCM frames of a result. How many frames a result has is not known before it
is there, so the two are taken lexicographically.
-/

namespace SupertonicServer

open Audio (AudioOps)
open Pool
open Lib (run Settled RunsOn Descends)

variable {F : Type} {ops : AudioOps F}

/-! ## The work that is left -/

/-- An emit task goes down from here with every step, but for those that ship. -/
def EmitPc.weight : EmitPc → Nat
  | .inSynth _ => 5
  | .created => 4
  | .inSend _ _ => 4
  | .atGet => 3
  | .inDone => 2
  | .inError _ => 1
  | .finished => 0

/-- The frames behind the one that is being sent. -/
def EmitPc.framesLeft : EmitPc → Nat
  | .inSend _ rest => rest.length
  | _ => 0

/-- An item in the queue costs more than the step into `synthesize` and the job together. -/
def Context.weight (ctx : Context) : Nat := 6 * ctx.queue.length + ctx.emit.weight

/-- The visits of `close` still to come, each of which puts an EOF into a queue. -/
def Session.toVisit (s : Session F) : Nat :=
  match s.recv with
  | .listening => 0
  | .sendingError _ => 7 * s.contexts.length + 2
  | .closing _ rest => 7 * rest.length + 1
  | .closed => 0

/-- The jobs still to be started, and to be ended. -/
def poolWork (p : WorkerPool F) : Nat := 2 * p.queued.length + p.running.length

/-- The context `k.2` of the session `k.1`. -/
def Server.obj (s : Server F) (k : Nat × String) : Option Context := (s.sessions k.1).objs k.2

/-- The work left in the contexts `K`, the sessions `S` and the pool. -/
def Server.work (K : Finset (Nat × String)) (S : Finset Nat) (s : Server F) : Nat :=
  ∑ k ∈ K, (s.obj k).elim 0 Context.weight + ∑ sid ∈ S, (s.sessions sid).toVisit +
    poolWork s.pool

def Server.framesLeft (K : Finset (Nat × String)) (s : Server F) : Nat :=
  ∑ k ∈ K, (s.obj k).elim 0 fun ctx => ctx.emit.framesLeft

/-- No work is left outside. -/
structure Server.Covered (K : Finset (Nat × String)) (S : Finset Nat) (s : Server F) : Prop where
  objs : ∀ k, s.obj k ≠ none → k ∈ K
  visits : ∀ sid, (s.sessions sid).toVisit ≠ 0 → sid ∈ S

/-- A sum of which one summand changes. -/
theorem sum_of_update {κ : Type} [DecidableEq κ] {K : Finset κ} {f g : κ → Nat} {k : κ}
    (hk : k ∈ K) (h : ∀ j, j ≠ k → g j = f j) :
    ∑ j ∈ K, g j + f k = ∑ j ∈ K, f j + g k := by
  have hrest : ∑ j ∈ K.erase k, g j = ∑ j ∈ K.erase k, f j :=
    Finset.sum_congr rfl fun j hj => h j (Finset.ne_of_mem_erase hj)
  rw [← Finset.add_sum_erase K g hk, ← Finset.add_sum_erase K f hk, hrest]
  omega

/-! ## Every inner step goes down -/

section Steps

variable {Res : Coalescer.Chunk → String → Outcome F → Prop} {sid : Nat} {ctx : Context}
  {eff : Effect F} {flag : Bool} {closing : Prop}

/-- Calls that take no job in make no work for the pool. -/
theorem poolWork_call_le (p : WorkerPool F) {k : PoolCall} (hk : ∀ o t v, k ≠ .submit o t v) :
    poolWork (p.call k) ≤ poolWork p := by
  cases k with
  | submit owner text voice => exact absurd rfl (hk owner text voice)
  | abandon owner =>
    have := List.length_filter_le (fun j : Job => decide (j.owner ≠ owner)) p.queued
    simp only [poolWork, WorkerPool.call, WorkerPool.abandon]
    omega
  | cancel | forget | collect => exact Nat.le_refl _

theorem poolWork_submit (p : WorkerPool F) (owner : Owner) (text : Coalescer.Chunk)
    (voice : String) : poolWork (p.call (.submit owner text voice)) = poolWork p + 2 := by
  simp only [poolWork, WorkerPool.call, WorkerPool.submit, List.length_append, List.length_cons,
    List.length_nil]
  omega

/-- Shipping goes on to the next frame or back to the queue. -/
theorem ship_descends (flag : Bool) (ctx : Context) (frames : List Wire.Bytes)
    (events : List (Event F)) (calls : List PoolCall) :
    (ctx.ship flag frames events calls).ctx.weight ≤ 6 * ctx.queue.length + 4 ∧
    ((ctx.ship flag frames events calls).ctx.weight = 6 * ctx.queue.length + 4 →
      (ctx.ship flag frames events calls).ctx.emit.framesLeft < frames.length) := by
  unfold Context.ship
  split
  next => simp [Context.weight, EmitPc.weight]
  next frame rest =>
    split
    next => simp [Context.weight, EmitPc.weight]
    next => simp [Context.weight, EmitPc.weight, EmitPc.framesLeft]

/-- A step of an emit task takes work away, or ships a frame. -/
theorem TaskStep.descends (h : TaskStep ops Res sid flag closing ctx eff) (p : WorkerPool F) :
    eff.ctx.weight + poolWork (p.calls eff.calls) < ctx.weight + poolWork p ∨
    (eff.ctx.weight + poolWork (p.calls eff.calls) = ctx.weight + poolWork p ∧
      eff.ctx.emit.framesLeft < ctx.emit.framesLeft) := by
  have hcollect : poolWork (p.call (.collect ⟨sid, ctx.contextId⟩)) ≤ poolWork p :=
    poolWork_call_le p (by simp)
  have hforget : ∀ q : WorkerPool F, poolWork (q.call (.forget ctx.contextId)) ≤ poolWork q :=
    fun q => poolWork_call_le q (by simp)
  have hf := hforget p
  cases h with
  | chunkSent pcm rest hemit =>
    -- the only step that may leave the work as it is
    obtain ⟨hle, hframes⟩ := ship_descends (F := F) flag ctx rest
      [.delivered (Wire.encodeChunk ctx.contextId pcm)] []
    have hweight : ctx.weight = 6 * ctx.queue.length + 4 := by
      simp only [Context.weight, hemit, EmitPc.weight]
    have hleft : ctx.emit.framesLeft = rest.length := by
      simp only [hemit, EmitPc.framesLeft]
    rw [ship_calls, calls_nil, hweight, hleft]
    rcases Nat.lt_or_eq_of_le hle with hlt | heq
    · exact Or.inl (by omega)
    · exact Or.inr ⟨by omega, hframes heq⟩
  | shipped chunk result frames hemit =>
    left
    have hle := (ship_descends flag ctx frames [.synthesized ctx.contextId chunk (.ok result)]
      [.collect ⟨sid, ctx.contextId⟩]).1
    rw [ship_calls]
    simp only [calls_cons, calls_nil, Context.weight, hemit, EmitPc.weight] at hle ⊢
    omega
  | submitted chunk q hemit hqueue =>
    left
    have hsubmit := poolWork_submit p ⟨sid, ctx.contextId⟩ chunk ctx.voiceId
    simp only [calls_cons, calls_nil, Context.weight, hemit, hqueue, EmitPc.weight,
      List.length_cons]
    omega
  | killedInSynth chunk hc hemit =>
    left
    have habandon := poolWork_call_le p (k := .abandon ⟨sid, ctx.contextId⟩) (by simp)
    have hf' := hforget (p.call (.abandon ⟨sid, ctx.contextId⟩))
    simp only [Context.finish, List.cons_append, List.nil_append, calls_cons, calls_nil,
      Context.weight, hemit, EmitPc.weight]
    omega
  | eofDropped q hemit hqueue | eof q hemit hqueue | dropped chunk q hemit hqueue =>
    left
    simp only [Context.finish, List.nil_append, calls_cons, calls_nil, Context.weight, hemit,
      hqueue, EmitPc.weight, List.length_cons]
    omega
  | start hemit | synthFailed _ _ hemit | synthDropped _ _ hemit | pipelineFailed _ _ _ hemit
  | chunkFailed _ _ _ hemit | doneSent hemit | doneFailed _ hemit | errorSent _ hemit
  | errorFailed _ hemit | killedAtGet _ hemit | killedInSend _ _ _ hemit | killedInDone _ hemit =>
    left
    simp only [Context.finish, Context.crash, List.nil_append, calls_cons, calls_nil,
      Context.weight, hemit, EmitPc.weight]
    omega

end Steps

/-- An inner step of a session: a task goes on, the receive loop goes back to its client, or
`close` goes on, with a visit less to come. -/
inductive InnerStep (ops : AudioOps F) (p : WorkerPool F) (sid : Nat) (s : Session F) :
    Session F → List PoolCall → Prop where
  | task (c : String) (ctx : Context) (eff : Effect F) (flag : Bool)
      (hctx : s.objs c = some ctx)
      (htask : TaskStep ops (fun _ _ _ => True) sid flag True ctx eff) :
      InnerStep ops p sid s (s.withContext c eff.ctx eff.events) eff.calls
  | listens (s' : Session F) (hobjs : s'.objs = s.objs) (hlistens : s'.recv = .listening)
      (hvisits : 0 < s.toVisit) : InnerStep ops p sid s s' []
  | visits (t : Session F) (todo : List String) (hobjs : t.objs = s.objs)
      (hvisits : 7 * todo.length < s.toVisit) :
      InnerStep ops p sid s (t.visit todo).1 (t.visit todo).2

theorem inner_cases {p : WorkerPool F} {sid : Nat} {s : Session F} {act : Action}
    {r : Session F × List PoolCall} (hready : p.ready = true)
    (hinner : (ServerAct.sess (F := F) sid act).Inner) (h : s.step ops p sid act = some r) :
    InnerStep ops p sid s r.1 r.2 := by
  cases act with
  | handle msg => exact absurd hinner id
  | disconnect => exact absurd hinner id
  | errorSent ok =>
    simp only [Session.step] at h
    split at h
    next reason hrecv =>
      cases ok <;> cases h
      · exact .visits { s with closed := true, trace := s.trace ++ [.sendFailed _] } s.contexts rfl
          (by simp [Session.toVisit, hrecv])
      · exact .listens _ rfl rfl (by simp [Session.toVisit, hrecv])
    next => exact absurd h (by simp)
  | closeNext =>
    simp only [Session.step] at h
    split at h
    next c rest hrecv =>
      split at h
      next ctx hctx =>
        split at h
        next hfin =>
          cases h
          exact .visits s rest rfl (by simp [Session.toVisit, hrecv])
        next => exact absurd h (by simp)
      next => exact absurd h (by simp)
    next => exact absurd h (by simp)
  | emit c =>
    obtain ⟨ctx, hctx, h⟩ := Option.bind_eq_some_iff.mp h
    obtain ⟨eff, heff, h⟩ := Option.bind_eq_some_iff.mp h
    cases h
    exact .task c ctx eff _ hctx (resume_taskStep hready (fun _ _ _ _ => trivial) heff)
  | sent c exc =>
    obtain ⟨ctx, hctx, h⟩ := Option.bind_eq_some_iff.mp h
    obtain ⟨eff, heff, h⟩ := Option.bind_eq_some_iff.mp h
    cases h
    exact .task c ctx eff _ hctx (sent_taskStep heff)
  | timeout out =>
    simp only [Session.step] at h
    split at h
    next c rest hrecv =>
      obtain ⟨ctx, hctx, h⟩ := Option.bind_eq_some_iff.mp h
      obtain ⟨eff, heff, h⟩ := Option.bind_eq_some_iff.mp h
      cases h
      exact .task c ctx eff false hctx (kill_taskStep trivial heff)
    next => exact absurd h (by simp)

section Measure

variable {K : Finset (Nat × String)} {S : Finset Nat} {s : Server F} {sid : Nat}

/-- A context of one session changes: the sums over all contexts change by its part. -/
theorem sum_objs {s' : Server F} {c : String} {ctx ctx' : Context} (f : Context → Nat)
    (hcov : s.Covered K S) (hctx : s.obj (sid, c) = some ctx) (hctx' : s'.obj (sid, c) = some ctx')
    (hother : ∀ k, k ≠ (sid, c) → s'.obj k = s.obj k) :
    ∑ k ∈ K, (s'.obj k).elim 0 f + f ctx = ∑ k ∈ K, (s.obj k).elim 0 f + f ctx' := by
  have hsum := sum_of_update (K := K) (f := fun k => (s.obj k).elim 0 f)
    (g := fun k => (s'.obj k).elim 0 f) (hcov.objs (sid, c) (by rw [hctx]; simp))
    (fun k hk => by rw [hother k hk])
  simp only [hctx, hctx', Option.elim_some] at hsum
  exact hsum

/-- The same for the visits of one session. -/
theorem sum_visits {s' : Server F} (hcov : s.Covered K S)
    (hother : ∀ sid', sid' ≠ sid → s'.sessions sid' = s.sessions sid')
    (hvisits : (s'.sessions sid).toVisit = (s.sessions sid).toVisit ∨
      0 < (s.sessions sid).toVisit) :
    ∑ i ∈ S, (s'.sessions i).toVisit + (s.sessions sid).toVisit =
      ∑ i ∈ S, (s.sessions i).toVisit + (s'.sessions sid).toVisit := by
  by_cases hS : sid ∈ S
  · exact sum_of_update (f := fun i => (s.sessions i).toVisit)
      (g := fun i => (s'.sessions i).toVisit) hS fun i hi => by rw [hother i hi]
  · have hsame : (s'.sessions sid).toVisit = (s.sessions sid).toVisit := by
      rcases hvisits with h | h
      · exact h
      · exact absurd (hcov.visits sid (by omega)) hS
    rw [hsame, Finset.sum_congr rfl fun i hi => ?_]
    rw [hother i fun heq => hS (heq ▸ hi)]

/-- A session that steps without work of its own outside leaves none outside. -/
theorem Server.Covered.step {s' : Server F} (hcov : s.Covered K S)
    (hobj : ∀ k, s'.obj k ≠ none → s.obj k ≠ none)
    (hother : ∀ sid', sid' ≠ sid → s'.sessions sid' = s.sessions sid')
    (hvisits : (s'.sessions sid).toVisit = (s.sessions sid).toVisit ∨
      0 < (s.sessions sid).toVisit) : s'.Covered K S where
  objs k hk := hcov.objs k (hobj k hk)
  visits i hi := by
    by_cases heq : i = sid
    · rw [heq] at hi ⊢
      apply hcov.visits sid
      rcases hvisits with h | h
      · rwa [← h]
      · omega
    · rw [hother i heq] at hi
      exact hcov.visits i hi

/-- A context of the session `sid` changes, and its receive loop may go on. -/
theorem work_of_update {s' : Server F} {c : String} {ctx ctx' : Context} (hcov : s.Covered K S)
    (hctx : s.obj (sid, c) = some ctx) (hctx' : s'.obj (sid, c) = some ctx')
    (hobjs : ∀ k, k ≠ (sid, c) → s'.obj k = s.obj k)
    (hother : ∀ sid', sid' ≠ sid → s'.sessions sid' = s.sessions sid')
    (hvisits : (s'.sessions sid).toVisit = (s.sessions sid).toVisit ∨
      0 < (s.sessions sid).toVisit) :
    s'.Covered K S ∧
    s'.work K S + (ctx.weight + (s.sessions sid).toVisit + poolWork s.pool) =
      s.work K S + (ctx'.weight + (s'.sessions sid).toVisit + poolWork s'.pool) ∧
    s'.framesLeft K + ctx.emit.framesLeft = s.framesLeft K + ctx'.emit.framesLeft := by
  refine ⟨hcov.step ?_ hother hvisits, ?_, ?_⟩
  · intro k hk
    by_cases heq : k = (sid, c)
    · rw [heq, hctx]
      simp
    · rwa [← hobjs k heq]
  · have hobj := sum_objs Context.weight hcov hctx hctx' hobjs
    have hvisit := sum_visits hcov hother hvisits
    unfold Server.work
    omega
  · exact sum_objs (fun ctx => ctx.emit.framesLeft) hcov hctx hctx' hobjs

/-- Only the receive loop of the session `sid` goes on. -/
theorem work_of_quiet {s' : Server F} (hcov : s.Covered K S) (hobjs : ∀ k, s'.obj k = s.obj k)
    (hother : ∀ sid', sid' ≠ sid → s'.sessions sid' = s.sessions sid')
    (hvisits : 0 < (s.sessions sid).toVisit) :
    s'.Covered K S ∧
    s'.work K S + ((s.sessions sid).toVisit + poolWork s.pool) =
      s.work K S + ((s'.sessions sid).toVisit + poolWork s'.pool) := by
  refine ⟨hcov.step (fun k hk => by rwa [← hobjs k]) hother (Or.inr hvisits), ?_⟩
  have hvisit := sum_visits hcov hother (Or.inr hvisits)
  have hsum : ∑ k ∈ K, (s'.obj k).elim 0 Context.weight =
      ∑ k ∈ K, (s.obj k).elim 0 Context.weight :=
    Finset.sum_congr rfl fun k _ => by rw [hobjs k]
  unfold Server.work
  omega

/-- An inner step of a session, seen from the server. -/
theorem InnerStep.descends {s₁ : Session F} {calls : List PoolCall} {s' : Server F}
    (hcov : s.Covered K S) (h : InnerStep ops s.pool sid (s.sessions sid) s₁ calls)
    (hs' : s' = { pool := s.pool.calls calls, sessions := Function.update s.sessions sid s₁ }) :
    s'.Covered K S ∧ (s'.work K S < s.work K S ∨
      (s'.work K S = s.work K S ∧ s'.framesLeft K < s.framesLeft K)) := by
  have hself : s'.sessions sid = s₁ := by
    rw [hs']
    exact Function.update_self ..
  have hother : ∀ sid', sid' ≠ sid → s'.sessions sid' = s.sessions sid' := by
    intro sid' hne
    rw [hs']
    exact Function.update_of_ne hne ..
  have hpool : s'.pool = s.pool.calls calls := by rw [hs']
  -- a step that touches the one context `c`
  have hupdate : ∀ c ctx, s₁.objs = Function.update (s.sessions sid).objs c (some ctx) →
      s'.obj (sid, c) = some ctx ∧ ∀ k, k ≠ (sid, c) → s'.obj k = s.obj k := by
    intro c ctx hobjs
    refine ⟨?_, fun k hk => ?_⟩
    · rw [Server.obj, hself, hobjs, Function.update_self]
    · obtain ⟨sid', d⟩ := k
      by_cases hs : sid' = sid
      · subst hs
        have hd : d ≠ c := by
          intro hd
          exact hk (by rw [hd])
        rw [Server.obj, hself, hobjs, Function.update_of_ne hd]
        rfl
      · rw [Server.obj, hother sid' hs]
        rfl
  -- and one that touches none
  have hquiet : s₁.objs = (s.sessions sid).objs → ∀ k, s'.obj k = s.obj k := by
    intro hobjs k
    by_cases hs : k.1 = sid
    · rw [Server.obj, Server.obj, hs, hself, hobjs]
    · rw [Server.obj, hother k.1 hs]
      rfl
  cases h with
  | task c ctx eff flag hctx htask =>
    obtain ⟨hctx', hobjs⟩ := hupdate c eff.ctx rfl
    have hvisit : (s'.sessions sid).toVisit = (s.sessions sid).toVisit := by
      rw [hself]
      rfl
    obtain ⟨hcov', hwork, hframes⟩ :=
      work_of_update hcov hctx hctx' hobjs hother (Or.inl hvisit)
    have hdown := htask.descends s.pool
    rw [hpool] at hwork
    refine ⟨hcov', ?_⟩
    rcases hdown with hdown | ⟨hsame, hdown⟩
    · exact Or.inl (by omega)
    · exact Or.inr ⟨by omega, by omega⟩
  | listens _ hobjs hlistens hvisits =>
    obtain ⟨hcov', hwork⟩ := work_of_quiet hcov (hquiet hobjs) hother hvisits
    have hzero : (s'.sessions sid).toVisit = 0 := by
      rw [hself]
      simp [Session.toVisit, hlistens]
    rw [hpool, calls_nil] at hwork
    exact ⟨hcov', Or.inl (by omega)⟩
  | visits t todo hobjs hvisits =>
    have hpos : 0 < (s.sessions sid).toVisit := by omega
    -- a flag and an EOF make no work for the pool
    have hcalls : poolWork (s.pool.calls (t.visit todo).2) = poolWork s.pool := by
      rw [visit_calls]
      cases todo <;> rfl
    cases todo with
    | nil =>
      obtain ⟨hcov', hwork⟩ := work_of_quiet hcov (hquiet hobjs) hother hpos
      have hzero : (s'.sessions sid).toVisit = 0 := by
        rw [hself]
        rfl
      rw [hpool, hcalls] at hwork
      exact ⟨hcov', Or.inl (by omega)⟩
    | cons c rest =>
      have hrecv : (t.visit (c :: rest)).1.recv = .closing c rest := by
        unfold Session.visit
        dsimp only
        split <;> rfl
      have hleft : (s'.sessions sid).toVisit = 7 * rest.length + 1 := by
        rw [hself]
        simp [Session.toVisit, hrecv]
      rw [List.length_cons] at hvisits
      cases hctx : t.objs c with
      | none =>
        have hsame : (t.visit (c :: rest)).1.objs = (s.sessions sid).objs := by
          simp only [Session.visit, hctx]
          exact hobjs
        obtain ⟨hcov', hwork⟩ := work_of_quiet hcov (hquiet hsame) hother hpos
        rw [hpool, hcalls] at hwork
        exact ⟨hcov', Or.inl (by omega)⟩
      | some ctx =>
        obtain ⟨hctx', hsame⟩ := hupdate c { ctx with queue := ctx.queue ++ [none] } (by
          simp only [Session.visit, hctx]
          rw [← hobjs]
          rfl)
        rw [hobjs] at hctx
        obtain ⟨hcov', hwork, -⟩ := work_of_update hcov hctx hctx' hsame hother (Or.inr hpos)
        rw [hpool, hcalls] at hwork
        simp only [Context.weight, List.length_append, List.length_cons, List.length_nil] at hwork
        exact ⟨hcov', Or.inl (by omega)⟩

/-- A step of the executor brings a job nearer to its end. -/
theorem exec_poolWork {p q : WorkerPool F} {e : ExecAct F} (h : p.exec e = some q) :
    poolWork q < poolWork p := by
  rcases exec_cases h with ⟨_, j, rest, _, hq, _, _, rfl⟩ | ⟨owner, o, j, _, hj, _, hfind, rfl⟩
  · simp only [poolWork, hq, List.length_append, List.length_cons, List.length_nil]
    omega
  · obtain ⟨before, after, hsplit, herase⟩ := eraseP_of_find? hfind
    simp only [poolWork, herase]
    rw [hsplit]
    simp only [List.length_append, List.length_cons]
    omega

/-- **Every inner step goes down.** -/
theorem inner_descends : Descends (Server.step ops) ServerAct.Inner
    (fun s : Server F => s.Wf ∧ s.Covered K S) (Prod.Lex (· < ·) (· < ·))
    (fun s => (s.work K S, s.framesLeft K)) := by
  have hstep : ∀ {s s' : Server F} {a : ServerAct F}, s.Wf ∧ s.Covered K S → a.Inner →
      s.step ops a = some s' → s'.Covered K S ∧ (s'.work K S < s.work K S ∨
        (s'.work K S = s.work K S ∧ s'.framesLeft K < s.framesLeft K)) := by
    intro s s' a h hinner hs
    rcases server_step_cases hs with ⟨sid, act, r, rfl, hr, rfl⟩ | ⟨e, p, -, he, rfl⟩
    · exact (inner_cases h.1.ready hinner hr).descends h.2 rfl
    · have hdown := exec_poolWork he
      refine ⟨⟨h.2.objs, h.2.visits⟩, Or.inl ?_⟩
      exact Nat.add_lt_add_left hdown _
  constructor
  · intro s a s' h hinner hs
    exact ⟨step_serverWf h.1 hs, (hstep h hinner hs).1⟩
  · intro s a s' h hinner hs
    exact Prod.lex_def.mpr (hstep h hinner hs).2

end Measure

/-! ## Every state is covered -/

/-- A move makes at most one context. -/
theorem Move.objs_new {Res : Coalescer.Chunk → String → Outcome F → Prop} {p : WorkerPool F}
    {sid : Nat} {s s' : Session F} {calls : List PoolCall} (h : Move ops Res p sid s s' calls) :
    ∃ c, ∀ d, s'.objs d ≠ none → s.objs d ≠ none ∨ d = c := by
  have hcontext : ∀ (t : Session F) (c : String) (ctx : Context) (evs : List (Event F)) (d : String),
      (t.withContext c ctx evs).objs d ≠ none → t.objs d ≠ none ∨ d = c := by
    intro t c ctx evs d hd
    by_cases hdc : d = c
    · exact Or.inr hdc
    · rw [withContext_objs_ne t ctx evs hdc] at hd
      exact Or.inl hd
  have hvisit : ∀ (t : Session F) (todo : List String),
      ∃ c, ∀ d, (t.visit todo).1.objs d ≠ none → t.objs d ≠ none ∨ d = c := by
    intro t todo
    cases todo with
    | nil => exact ⟨"", fun d hd => Or.inl hd⟩
    | cons c rest =>
      refine ⟨c, fun d hd => ?_⟩
      unfold Session.visit at hd
      dsimp only at hd
      split at hd
      next => exact Or.inl hd
      next => exact hcontext { t with recv := .closing c rest } c _ _ d hd
  cases h with
  | stay | badFrame | errorSent => exact ⟨"", fun d hd => Or.inl hd⟩
  | text msg =>
    refine ⟨msg.contextId, fun d hd => ?_⟩
    unfold Session.onText at hd
    split at hd
    next =>
      exact hcontext { s with contexts := s.contexts ++ [msg.contextId] } _ _ _ d hd
    next => exact hcontext s _ _ _ d hd
  | cancel c => exact ⟨c, hcontext s c _ _⟩
  | task c => exact ⟨c, hcontext s c _ _⟩
  | close events => exact hvisit { s with closed := true, trace := s.trace ++ events } s.contexts
  | closeNext c rest => exact hvisit s rest

/-- Only finitely much has ever been opened. -/
theorem exists_covered {n : ℕ+} {acts : List (ServerAct F)} {s : Server F}
    (hrun : run (Server.step ops) (Server.init F n) acts = some s) :
    ∃ K S, s.Covered K S := by
  have hinv : s.Wf ∧ ∃ K S, s.Covered K S := by
    refine Lib.run_inv (I := fun s : Server F => s.Wf ∧ ∃ K S, s.Covered K S) ?_
      ⟨init_serverWf n, ∅, ∅, ⟨fun k hk => absurd rfl hk, fun sid hs => absurd rfl hs⟩⟩ hrun
    intro s a s' h hstep
    obtain ⟨hwf, K, S, hcov⟩ := h
    refine ⟨step_serverWf hwf hstep, ?_⟩
    rcases server_step_cases hstep with ⟨sid, act, r, -, hr, rfl⟩ | ⟨e, p, -, he, rfl⟩
    · obtain ⟨c, hnew⟩ := (server_move hwf hr).objs_new
      refine ⟨insert (sid, c) K, insert sid S, ?_, ?_⟩
      · intro k hk
        rw [Finset.mem_insert]
        obtain ⟨sid', d⟩ := k
        replace hk : (Function.update s.sessions sid r.1 sid').objs d ≠ none := hk
        by_cases hs : sid' = sid
        · subst hs
          rw [Function.update_self] at hk
          rcases hnew d hk with hd | rfl
          · exact Or.inr (hcov.objs (sid', d) hd)
          · exact Or.inl rfl
        · rw [Function.update_of_ne hs] at hk
          exact Or.inr (hcov.objs (sid', d) hk)
      · intro sid' hv
        rw [Finset.mem_insert]
        replace hv : (Function.update s.sessions sid r.1 sid').toVisit ≠ 0 := hv
        by_cases hs : sid' = sid
        · exact Or.inl hs
        · rw [Function.update_of_ne hs] at hv
          exact Or.inr (hcov.visits sid' hv)
    · exact ⟨K, S, hcov.objs, hcov.visits⟩
  exact hinv.2

/-- **The server comes to rest**: from every state a run reaches, no schedule of inner steps
goes on for ever; some schedule brings the server to rest, and wherever no inner step is left
it is at rest. So under every schedule all that has been received is dealt with. -/
theorem server_settles {n : ℕ+} {acts : List (ServerAct F)} {s : Server F}
    (hrun : run (Server.step ops) (Server.init F n) acts = some s) :
    ¬ RunsOn (Server.step ops) ServerAct.Inner s ∧
    (∃ more s', (∀ a ∈ more, a.Inner) ∧ run (Server.step ops) s more = some s' ∧ s'.AtRest) ∧
    (Settled (Server.step ops) ServerAct.Inner s ↔ s.AtRest) := by
  have hsound : s.Sound := Lib.run_inv (fun _ _ _ h hs => step_sound h hs) (init_sound n) hrun
  obtain ⟨K, S, hcov⟩ := exists_covered hrun
  have hwf : WellFounded (Prod.Lex (· < ·) (· < ·) : Nat × Nat → Nat × Nat → Prop) :=
    WellFounded.prod_lex wellFounded_lt wellFounded_lt
  have hdown : Descends (Server.step ops) ServerAct.Inner
      (fun s : Server F => s.Wf ∧ s.Covered K S) (Prod.Lex (· < ·) (· < ·))
      (fun s => (s.work K S, s.framesLeft K)) := inner_descends
  refine ⟨hdown.not_runsOn hwf ⟨hsound.wf, hcov⟩, ?_, settled_iff_atRest hsound⟩
  obtain ⟨more, s', hmore, hrun', hset⟩ := hdown.exists_settled hwf ⟨hsound.wf, hcov⟩
  have hsound' : s'.Sound := Lib.run_inv (fun _ _ _ h hs => step_sound h hs) hsound hrun'
  exact ⟨more, s', hmore, hrun', (settled_iff_atRest hsound').mp hset⟩

/-- A frame is handled and nothing else has happened: the server is not at rest, and gets
there. -/
theorem server_settles_handled : ∃ s,
    run (Server.step silentOps) (Server.init Unit 1)
      [.sess 0 (.handle (.text (textOfX "Hi." false 50)))] = some s ∧
    ¬ s.AtRest ∧ ¬ RunsOn (Server.step silentOps) ServerAct.Inner s ∧
    ∃ more s', (∀ a ∈ more, a.Inner) ∧ run (Server.step silentOps) s more = some s' ∧
      s'.AtRest := by
  obtain ⟨s, hrun⟩ : ∃ s, run (Server.step silentOps) (Server.init Unit 1)
      [.sess 0 (.handle (.text (textOfX "Hi." false 50)))] = some s := ⟨_, rfl⟩
  obtain ⟨hends, hrest, hsettled⟩ := server_settles hrun
  refine ⟨s, hrun, fun hatRest => ?_, hends, hrest⟩
  -- the task of the new context can start
  have hstuck := hsettled.mpr hatRest (.sess 0 (.emit "x")) trivial
  have hstep : (run (Server.step silentOps) (Server.init Unit 1)
      [.sess 0 (.handle (.text (textOfX "Hi." false 50))), .sess 0 (.emit "x")]).isSome = true := by
    decide +kernel
  rw [show [ServerAct.sess (F := Unit) 0 (.handle (.text (textOfX "Hi." false 50))),
      .sess 0 (.emit "x")] = [.sess 0 (.handle (.text (textOfX "Hi." false 50)))] ++
        [.sess 0 (.emit "x")] from rfl, Lib.run_append, hrun] at hstep
  simp [hstuck] at hstep

end SupertonicServer
