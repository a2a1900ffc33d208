import SupertonicServer.Server.Basic
import SupertonicServer.Session.Life

/-!
# First come, first served

The one queue of the executor serves all sessions, and nobody can push in: a job that waits is
started after as many starts as there were jobs ahead of it when it was submitted, whatever the
sessions submit in the meantime (`waits_its_turn`). The one other way out of the queue is the end
of its own connection.
-/

namespace SupertonicServer

open Coalescer (Chunk)
open Audio (AudioOps)
open Pool
open Lib (run)

variable {F : Type} {ops : AudioOps F}

/-- The job waits in the queue, and at most `k` jobs are ahead of it. -/
def Pool.WorkerPool.Ahead (p : WorkerPool F) (j : Job) (k : Nat) : Prop :=
  ∃ before after, p.queued = before ++ j :: after ∧ before.length ≤ k

/-- The step is a start of the executor. -/
def ServerAct.isStart : ServerAct F → Bool
  | .exec (.start _) => true
  | _ => false

/-- The starts among some steps. -/
def starts (acts : List (ServerAct F)) : Nat := acts.countP ServerAct.isStart

/-- A call leaves the jobs ahead of another as they are, or takes some away. -/
theorem call_ahead {p : WorkerPool F} {j : Job} {k : Nat} (h : p.Ahead j k) (call : PoolCall)
    (hcall : call ≠ .abandon j.owner) : (p.call call).Ahead j k := by
  obtain ⟨before, after, hqueue, hlen⟩ := h
  cases call with
  | submit owner text voice =>
    let mine : Job := ⟨p.nextWorkerIdx, p.nextWorkerIdx % p.nWorkers, owner, text, voice⟩
    refine ⟨before, after ++ [mine], ?_, hlen⟩
    show p.queued ++ [mine] = _
    rw [hqueue, List.append_assoc, List.cons_append]
  | abandon owner =>
    have hne : j.owner ≠ owner := fun heq => hcall (by rw [heq])
    refine ⟨before.filter fun i => i.owner ≠ owner, after.filter fun i => i.owner ≠ owner, ?_,
      Nat.le_trans (List.length_filter_le ..) hlen⟩
    show p.queued.filter _ = _
    rw [hqueue, List.filter_append, List.filter_cons_of_pos (by simpa using hne)]
  | cancel | forget | collect => exact ⟨before, after, hqueue, hlen⟩

theorem calls_ahead {p : WorkerPool F} {j : Job} {k : Nat} (h : p.Ahead j k)
    {ks : List PoolCall} (hks : .abandon j.owner ∉ ks) : (p.calls ks).Ahead j k := by
  induction ks generalizing p with
  | nil => exact h
  | cons call ks ih =>
    rw [List.mem_cons, not_or] at hks
    exact ih (call_ahead h call (Ne.symm hks.1)) hks.2

/-- A job is abandoned by its own session, and only when that is closing. -/
theorem Move.abandons {Res : Chunk → String → Outcome F → Prop} {p : WorkerPool F} {sid : Nat}
    {s s' : Session F} {calls : List PoolCall} (h : Move ops Res p sid s s' calls) (hwf : s.Wf)
    {owner : Owner} (howner : .abandon owner ∈ calls) :
    owner.session = sid ∧ s'.closed = true := by
  have hvisit : ∀ (t : Session F) (todo : List String), .abandon owner ∉ (t.visit todo).2 := by
    intro t todo hk
    rw [visit_calls] at hk
    obtain ⟨c, -, hc⟩ := List.mem_map.mp hk
    exact absurd hc (by simp)
  cases h with
  | stay | badFrame | errorSent | text => exact absurd howner List.not_mem_nil
  | cancel c ctx => exact absurd howner (by simp)
  | close events => exact absurd howner (hvisit _ _)
  | closeNext c rest => exact absurd howner (hvisit _ _)
  | task c ctx eff hctx htask =>
    have hclosed : (∃ rest, s.recv = .closing c rest) → s.closed = true := by
      intro hclosing
      obtain ⟨rest, hrecv⟩ := hclosing
      exact (hwf.awaited c rest hrecv).1
    cases htask with
    | killedInSynth chunk hclosing =>
      simp only [Context.finish, List.cons_append, List.nil_append, List.mem_cons,
        PoolCall.abandon.injEq, reduceCtorEq, List.not_mem_nil, or_self, or_false] at howner
      rw [howner]
      exact ⟨rfl, hclosed hclosing⟩
    | shipped | chunkSent =>
      rw [ship_calls] at howner
      exact absurd howner (by simp)
    | _ => exact absurd howner (by simp [Context.finish, Context.crash])

/-- **A step lets a waiting job wait, or come one job closer, or start**, if its connection does
not end. -/
theorem step_ahead {s s' : Server F} {a : ServerAct F} (hwf : s.Wf)
    (hstep : s.step ops a = some s') {j : Job} {k : Nat} (h : s.pool.Ahead j k) :
    (a.isStart = false ∧ s'.pool.Ahead j k) ∨
    (a.isStart = true ∧ ((∃ k', k = k' + 1 ∧ s'.pool.Ahead j k') ∨
      s.pool.queued.head? = some j)) ∨
    (s'.sessions j.owner.session).closed = true := by
  rcases server_step_cases hstep with ⟨sid, act, r, rfl, hr, rfl⟩ | ⟨e, p, rfl, hp, rfl⟩
  · by_cases hab : .abandon j.owner ∈ r.2
    · obtain ⟨hsid, hclosed⟩ := (server_move hwf hr).abandons (hwf.sessions sid) hab
      refine Or.inr (Or.inr ?_)
      rw [hsid]
      show (Function.update s.sessions sid r.1 sid).closed = true
      rw [Function.update_self]
      exact hclosed
    · exact Or.inl ⟨rfl, calls_ahead h hab⟩
  · obtain ⟨before, after, hqueue, hlen⟩ := h
    rcases exec_cases hp with ⟨owner, i, rest, rfl, hq, -, -, rfl⟩ | ⟨_, _, _, rfl, -, -, -, rfl⟩
    · refine Or.inr (Or.inl ⟨rfl, ?_⟩)
      rw [hqueue] at hq
      cases before with
      | nil =>
        refine Or.inr ?_
        rw [hqueue]
        rfl
      | cons b before =>
        obtain ⟨-, hrest⟩ := List.cons.inj hq
        cases k with
        | zero => exact absurd hlen (by simp)
        | succ k' =>
          refine Or.inl ⟨k', rfl, before, after, hrest.symm, ?_⟩
          simpa using hlen
    · exact Or.inl ⟨rfl, before, after, hqueue, hlen⟩

theorem run_closed {s s' : Server F} {acts : List (ServerAct F)} (hwf : s.Wf)
    (hrun : run (Server.step ops) s acts = some s') {sid : Nat}
    (hclosed : (s.sessions sid).closed = true) : (s'.sessions sid).closed = true :=
  (Lib.run_inv (I := fun s => s.Wf ∧ (s.sessions sid).closed = true)
    (fun _ _ _ h hs => ⟨step_serverWf h.1 hs, step_closed h.1 hs h.2⟩) ⟨hwf, hclosed⟩ hrun).2

/-- The job was started, after at most `k` starts. -/
def StartedWithin (ops : AudioOps F) (j : Job) (k : Nat) (s : Server F)
    (acts : List (ServerAct F)) : Prop :=
  ∃ pre owner post t, acts = pre ++ .exec (.start owner) :: post ∧
    run (Server.step ops) s pre = some t ∧ t.pool.queued.head? = some j ∧ starts pre ≤ k

theorem starts_cons (a : ServerAct F) (acts : List (ServerAct F)) :
    starts (a :: acts) = starts acts + if a.isStart then 1 else 0 := by
  simp [starts, List.countP_cons]

/-- A start further on is one of the whole run. -/
theorem StartedWithin.later {j : Job} {k k' : Nat} {s t : Server F} {a : ServerAct F}
    {acts : List (ServerAct F)} (h : StartedWithin ops j k' t acts)
    (ht : s.step ops a = some t) (hk : (k' + if a.isStart then 1 else 0) ≤ k) :
    StartedWithin ops j k s (a :: acts) := by
  obtain ⟨pre, owner, post, u, rfl, hpre, hhead, hle⟩ := h
  refine ⟨a :: pre, owner, post, u, rfl, Lib.run_cons_some.mpr ⟨t, ht, hpre⟩, hhead, ?_⟩
  rw [starts_cons]
  omega

theorem run_ahead {s s' : Server F} {acts : List (ServerAct F)} (hwf : s.Wf)
    (hrun : run (Server.step ops) s acts = some s') {j : Job} {k : Nat} (h : s.pool.Ahead j k) :
    (starts acts ≤ k ∧ s'.pool.Ahead j (k - starts acts)) ∨ StartedWithin ops j k s acts ∨
      (s'.sessions j.owner.session).closed = true := by
  induction acts generalizing s k with
  | nil =>
    obtain rfl : s = s' := Option.some.inj hrun
    exact Or.inl ⟨Nat.zero_le _, h⟩
  | cons a acts ih =>
    obtain ⟨t, ht, hrest⟩ := Lib.run_cons_some.mp hrun
    have hwft := step_serverWf hwf ht
    have hcount := starts_cons a acts
    rcases step_ahead hwf ht h with ⟨hno, hnext⟩ | ⟨hyes, ⟨k', rfl, hnext⟩ | hhead⟩ | hclosed
    · rw [if_neg (by simp [hno])] at hcount
      rcases ih hwft hrest hnext with hwaits | hstarted | hclosed
      · rw [hcount]
        exact Or.inl hwaits
      · exact Or.inr (Or.inl (hstarted.later ht (by simp [hno])))
      · exact Or.inr (Or.inr hclosed)
    · rw [if_pos hyes] at hcount
      rcases ih hwft hrest hnext with ⟨hle, hwaits⟩ | hstarted | hclosed
      · rw [hcount]
        refine Or.inl ⟨by omega, ?_⟩
        rw [show k' + 1 - (starts acts + 1) = k' - starts acts by omega]
        exact hwaits
      · exact Or.inr (Or.inl (hstarted.later ht (by simp [hyes])))
      · exact Or.inr (Or.inr hclosed)
    · cases a with
      | exec e =>
        cases e with
        | start owner => exact Or.inr (Or.inl ⟨[], owner, acts, s, rfl, rfl, hhead, Nat.zero_le _⟩)
        | finish => exact absurd hyes (by simp [ServerAct.isStart])
      | sess => exact absurd hyes (by simp [ServerAct.isStart])
    · exact Or.inr (Or.inr (run_closed hwft hrest hclosed))

/-- **Nobody pushes in.** Take a job that waits in any state a server reaches, with the jobs
`before` ahead of it, and any steps from there, whatever is submitted in them. Then it still
waits, and each start has brought it one job closer; or it was started, after at most as many
starts as there were jobs ahead of it; or its own connection has ended. -/
theorem waits_its_turn {n : ℕ+} {past acts : List (ServerAct F)} {s s' : Server F}
    (hpast : run (Server.step ops) (Server.init F n) past = some s)
    (hrun : run (Server.step ops) s acts = some s') {before after : List Job} {j : Job}
    (hqueue : s.pool.queued = before ++ j :: after) :
    (starts acts ≤ before.length ∧ s'.pool.Ahead j (before.length - starts acts)) ∨
      StartedWithin ops j before.length s acts ∨
      (s'.sessions j.owner.session).closed = true := by
  have hwf : s.Wf := Lib.run_inv (fun _ _ _ h hs => step_serverWf h hs) (init_serverWf n) hpast
  exact run_ahead hwf hrun ⟨before, after, hqueue, Nat.le_refl _⟩

/-- The session asks for one utterance, and its emit task submits it. -/
def asks (sid : Nat) : List (ServerAct Unit) :=
  [.sess sid (.handle (.text (textOfX "Hi." false 50))), .sess sid (.emit "x"),
    .sess sid (.emit "x")]

/-- The one thread serves them in turn, and a fourth session asks in between. -/
def servedInTurn : List (ServerAct Unit) :=
  List.flatten [
    [.exec (.start ⟨0, "x"⟩), .exec (.finish ⟨0, "x"⟩ oneSample)], asks 3,
    [.exec (.start ⟨1, "x"⟩), .exec (.finish ⟨1, "x"⟩ oneSample), .exec (.start ⟨2, "x"⟩)]]

/-- Three sessions ask, and the job of the last of them is the third to start. -/
theorem waits_its_turn_last : ∃ s before j,
    run (Server.step silentOps) (Server.init Unit 1) (asks 0 ++ asks 1 ++ asks 2) = some s ∧
    s.pool.queued = before ++ [j] ∧ j.owner = ⟨2, "x"⟩ ∧ before.length = 2 ∧
    StartedWithin silentOps j 2 s servedInTurn := by
  obtain ⟨s, hrun⟩ : ∃ s, run (Server.step silentOps) (Server.init Unit 1)
      (asks 0 ++ asks 1 ++ asks 2) = some s := ⟨_, rfl⟩
  obtain ⟨j₀, j₁, j₂, hqueue, howner⟩ : ∃ j₀ j₁ j₂, s.pool.queued = [j₀, j₁] ++ [j₂] ∧
      j₂.owner = ⟨2, "x"⟩ := by
    obtain rfl := Option.some.inj hrun
    exact ⟨_, _, _, rfl, rfl⟩
  have hserved : (run (Server.step silentOps) (Server.init Unit 1)
      ((asks 0 ++ asks 1 ++ asks 2) ++ servedInTurn)).map (fun s => (s.sessions 2).closed) =
      some false := rfl
  rw [Lib.run_append, hrun, Option.bind_some, Option.map_eq_some_iff] at hserved
  obtain ⟨s', hrun', hopen⟩ := hserved
  refine ⟨s, [j₀, j₁], j₂, hrun, hqueue, howner, rfl, ?_⟩
  rcases waits_its_turn hrun hrun' hqueue with ⟨hfew, -⟩ | hstarted | hclosed
  · have hthree : starts servedInTurn = 3 := rfl
    rw [hthree] at hfew
    exact absurd hfew (by simp)
  · exact hstarted
  · rw [howner] at hclosed
    exact absurd hclosed (by simp [hopen])

end SupertonicServer
