import SupertonicServer.Server.Isolation

/-!
# Ids of its own

What a client can do for its isolation: choose context ids that no other client uses. The
condition is read off the last state of a run, since a session never loses a context, and it
gives `FlagsOwn`: no other session can raise or take down a flag of such an id.
-/

namespace SupertonicServer

open Audio (AudioOps)
open Pool
open Lib (run StepsMeet run_simulates)

variable {F : Type} {ops : AudioOps F} {sid : Nat}

/-- No session but `sid` has a context `c`. -/
def Server.NoOther (s : Server F) (sid : Nat) (c : String) : Prop :=
  ∀ sid', sid' ≠ sid → (s.sessions sid').objs c = none

/-- No other session has a context of an id that `sid` uses. -/
def Server.OwnIds (s : Server F) (sid : Nat) : Prop :=
  ∀ c, (s.sessions sid).objs c ≠ none → s.NoOther sid c

/-! ## Contexts stay -/

theorem visit_objs {s : Session F} {todo : List String} {c : String} (hc : s.objs c ≠ none) :
    (s.visit todo).1.objs c ≠ none := by
  cases todo with
  | nil => exact hc
  | cons d rest =>
    unfold Session.visit
    dsimp only
    split
    next => exact hc
    next => exact withContext_objs_ne_none (s := { s with recv := .closing d rest }) _ _ hc

/-- No move of a session takes a context away. -/
theorem Move.objs {Res : Coalescer.Chunk → String → Outcome F → Prop} {p : WorkerPool F}
    {s s' : Session F} {calls : List PoolCall} (h : Move ops Res p sid s s' calls) {c : String}
    (hc : s.objs c ≠ none) : s'.objs c ≠ none := by
  cases h with
  | stay | badFrame | errorSent => exact hc
  | text msg =>
    unfold Session.onText
    split
    next =>
      exact withContext_objs_ne_none (s := { s with contexts := s.contexts ++ [msg.contextId] })
        _ _ hc
    next => exact withContext_objs_ne_none _ _ hc
  | cancel | task => exact withContext_objs_ne_none _ _ hc
  | close events =>
    unfold Session.close
    exact visit_objs (s := { s with closed := true, trace := s.trace ++ events }) hc
  | closeNext => exact visit_objs hc

/-- A step of the server keeps the ids of `sid` its own only if they were. -/
theorem OwnIds.before {s s' : Server F} {a : ServerAct F} (hwf : s.Wf)
    (hstep : s.step ops a = some s') (hown : s'.OwnIds sid) : s.OwnIds sid := by
  intro c hc sid' hne
  by_contra hother
  obtain ⟨_, hmove⟩ := step_session hwf hstep sid
  obtain ⟨_, hmove'⟩ := step_session hwf hstep sid'
  exact hmove'.objs hother (hown c (hmove.objs hc) sid' hne)

theorem OwnIds.before_run {s s' : Server F} {acts : List (ServerAct F)} (hwf : s.Wf)
    (hrun : run (Server.step ops) s acts = some s') (hown : s'.OwnIds sid) : s.OwnIds sid := by
  induction acts generalizing s with
  | nil =>
    cases hrun
    exact hown
  | cons a acts ih =>
    obtain ⟨t, ht, hrest⟩ := Lib.run_cons_some.mp hrun
    exact OwnIds.before hwf ht (ih (step_serverWf hwf ht) hrest)

/-! ## Nobody else's flags -/

/-- A session calls the pool for one context of its own, if at all. -/
theorem Move.calls_own {Res : Coalescer.Chunk → String → Outcome F → Prop} {p : WorkerPool F}
    {s s' : Session F} {calls : List PoolCall} (h : Move ops Res p sid s s' calls)
    (hwf : s.Wf) : calls = [] ∨ ∃ c, s.objs c ≠ none ∧ ∀ k ∈ calls, k.Concerns sid c := by
  have hvisit : ∀ (t : Session F) {todo : List String}, (∀ d ∈ todo, s.objs d ≠ none) →
      (t.visit todo).2 = [] ∨
        ∃ c, s.objs c ≠ none ∧ ∀ k ∈ (t.visit todo).2, k.Concerns sid c := by
    intro t todo htodo
    rw [visit_calls]
    cases todo with
    | nil => exact Or.inl rfl
    | cons c rest =>
      exact Or.inr ⟨c, htodo c List.mem_cons_self, by simp [PoolCall.Concerns]⟩
  cases h with
  | stay | badFrame | errorSent | text => exact Or.inl rfl
  | cancel c ctx hopen hrecv hctx =>
    exact Or.inr ⟨c, by rw [objs_of_get? hctx]; simp, by simp [PoolCall.Concerns]⟩
  | task c ctx eff hctx htask =>
    obtain rfl := hwf.ids c ctx hctx
    exact Or.inr ⟨_, by rw [hctx]; simp, htask.calls_concern⟩
  | close events => exact hvisit _ hwf.table
  | closeNext c rest ctx hrecv =>
    exact hvisit _ fun d hd => (hwf.awaited c rest hrecv).2.2 d (List.mem_cons_of_mem _ hd)

/-- The same calls do the same to a flag in two pools. -/
theorem calls_flag_congr {p q : WorkerPool F} {c : String} (ks : List PoolCall)
    (h : c ∈ p.cancelled ↔ c ∈ q.cancelled) :
    c ∈ (p.calls ks).cancelled ↔ c ∈ (q.calls ks).cancelled := by
  induction ks generalizing p q with
  | nil => exact h
  | cons k ks ih =>
    refine ih ?_
    cases k with
    | cancel d => simp [WorkerPool.call, WorkerPool.cancel, h]
    | forget d => simp [WorkerPool.call, WorkerPool.forget, h]
    | submit | collect | abandon => exact h

/-- `sid` is alone on the pool of `w`, and the flags no other session can touch are the same
there. -/
structure OwnFlags (ops : AudioOps F) (sid : Nat) (s : Server F) (w : Solo F) : Prop where
  alone : Alone ops sid s w
  flags : ∀ c, s.NoOther sid c → (c ∈ s.pool.cancelled ↔ c ∈ w.pool.cancelled)

/-- So with ids of its own the session reads its own flags. -/
theorem OwnFlags.flagsOwn {s : Server F} {w : Solo F} (h : OwnFlags ops sid s w)
    (hown : s.OwnIds sid) (a : ServerAct F) : FlagsOwn sid s a := by
  cases a with
  | exec e => trivial
  | sess sid' act =>
    intro hsid c hc
    subst hsid
    obtain ⟨ctx, hctx, hlive⟩ := asks_live hc
    rw [h.flags c (hown c (by rw [hctx]; simp)), ← isCancelled_iff]
    rw [← h.alone.session] at hctx ⊢
    exact h.alone.inv.flag_iff hctx hlive

theorem step_ownFlags {s s' : Server F} {a : ServerAct F} {w : Solo F}
    (h : OwnFlags ops sid s w) (hown : s.OwnIds sid) (hstep : s.step ops a = some s') :
    ∃ w', run (Solo.step ops sid) w (a.only sid) = some w' ∧ OwnFlags ops sid s' w' := by
  obtain ⟨w', hw', halone⟩ := step_alone h.alone (h.flagsOwn hown a) hstep
  refine ⟨w', hw', halone, fun c hc => ?_⟩
  rcases server_step_cases hstep with ⟨sid', act, r, rfl, hr, rfl⟩ | ⟨e, p, rfl, hp, rfl⟩
  · by_cases hs : sid' = sid
    · subst hs
      -- its own step makes the same calls on both pools
      have hsame : (s.sessions sid').step ops s.pool sid' act =
          (s.sessions sid').step ops w.pool sid' act := by
        refine step_congr ops (h.alone.wf.sessions sid')
          (h.alone.wf.ready.trans h.alone.inv.ready.symm)
          (fun owner howner => result?_share h.alone.share howner) fun d hd => ?_
        obtain ⟨ctx, hctx, -⟩ := asks_live hd
        rw [Bool.eq_iff_iff, isCancelled_iff, isCancelled_iff]
        exact h.flags d (hown d (by rw [hctx]; simp))
      rw [hr, ← h.alone.session] at hsame
      rw [ServerAct.only, if_pos rfl, Lib.run_singleton] at hw'
      obtain ⟨r', hr', rfl⟩ := Option.map_eq_some_iff.mp hw'
      obtain rfl := Option.some.inj (hsame.trans hr')
      refine calls_flag_congr r.2 (h.flags c fun sid₁ hne => ?_)
      have hother := hc sid₁ hne
      replace hother : (Function.update s.sessions sid' r.1 sid₁).objs c = none := hother
      rwa [Function.update_of_ne hne] at hother
    · -- another session calls for a context it has, so not for `c`
      rw [ServerAct.only, if_neg hs] at hw'
      cases hw'
      have hmove := server_move h.alone.wf hr
      have hnone : (s.sessions sid').objs c = none := by
        by_contra hsome
        have hkeep := hmove.objs hsome
        have hother := hc sid' hs
        replace hother : (Function.update s.sessions sid' r.1 sid').objs c = none := hother
        rw [Function.update_self] at hother
        exact hkeep hother
      have hbefore : s.NoOther sid c := by
        intro sid₁ hne
        by_cases hs₁ : sid₁ = sid'
        · rwa [hs₁]
        · have hother := hc sid₁ hne
          replace hother : (Function.update s.sessions sid' r.1 sid₁).objs c = none := hother
          rwa [Function.update_of_ne hs₁] at hother
      rcases hmove.calls_own (h.alone.wf.sessions sid') with hcalls | ⟨d, hd, hcalls⟩
      · show c ∈ (s.pool.calls r.2).cancelled ↔ _
        rw [hcalls]
        exact h.flags c hbefore
      · have hne : c ≠ d := by
          intro heq
          exact hd (heq ▸ hnone)
        exact (calls_cancelled_ne hcalls hne).trans (h.flags c hbefore)
  · -- the executor touches no flag
    have hexec : ∀ (q : WorkerPool F) (q' : WorkerPool F), q.exec e = some q' →
        (c ∈ q'.cancelled ↔ c ∈ q.cancelled) := by
      intro q q' hq
      rw [exec_cancelled hq]
    rw [show c ∈ ({ s with pool := p } : Server F).pool.cancelled ↔ _ from hexec _ _ hp,
      h.flags c hc]
    by_cases he : e.owner.session = sid
    · rw [ServerAct.only, if_pos he, Lib.run_singleton] at hw'
      obtain ⟨q, hq, rfl⟩ := Option.map_eq_some_iff.mp hw'
      exact (hexec _ _ hq).symm
    · rw [ServerAct.only, if_neg he] at hw'
      cases hw'
      rfl

theorem init_ownFlags (n : ℕ+) : OwnFlags ops sid (Server.init F n) (Solo.init F n) :=
  ⟨init_alone n, fun _ _ => Iff.rfl⟩

/-- A session with ids of its own reads its own flags all along. -/
theorem flagsOwn_of_ownIds {n : ℕ+} {acts : List (ServerAct F)} {s : Server F}
    (hrun : run (Server.step ops) (Server.init F n) acts = some s) (hown : s.OwnIds sid) :
    StepsMeet (Server.step ops) (FlagsOwn sid) (Server.init F n) acts := by
  have hids : ∀ pre post t, acts = pre ++ post →
      run (Server.step ops) (Server.init F n) pre = some t → t.OwnIds sid := by
    intro pre post t hsplit hpre
    rw [hsplit] at hrun
    obtain ⟨t', ht', hpost⟩ := Lib.run_append_some hrun
    obtain rfl := Option.some.inj (hpre.symm.trans ht')
    have hwf := Lib.run_inv (fun _ _ _ h hs => step_serverWf h hs) (init_serverWf n) hpre
    exact OwnIds.before_run hwf hpost hown
  intro pre a post t t' hsplit hpre ha
  have hbefore : StepsMeet (Server.step ops) (fun t _ => t.OwnIds sid) (Server.init F n) pre := by
    intro pre₁ b post₁ u u' hsplit₁ hpre₁ _
    exact hids pre₁ (b :: post₁ ++ a :: post) u (by rw [hsplit, hsplit₁]; simp) hpre₁
  obtain ⟨w, -, hflags⟩ := run_simulates
    (fun _ _ _ _ h hP hs => step_ownFlags h hP hs) hbefore (init_ownFlags n) hpre
  exact hflags.flagsOwn (hids pre (a :: post) t hsplit hpre) a

/-- **Ids of its own suffice**: if at the end of a run no other session has a context of an id
that `sid` uses, then whatever the other sessions did in between, and in whatever order, the
part of `sid` is a run of that session alone on a pool of its own, with the same history. -/
theorem isolated_of_ownIds {n : ℕ+} {acts : List (ServerAct F)} {s : Server F}
    (hrun : run (Server.step ops) (Server.init F n) acts = some s) (hown : s.OwnIds sid) :
    ∃ w, run (Solo.step ops sid) (Solo.init F n) (acts.flatMap (ServerAct.only sid)) = some w ∧
      w.session = s.sessions sid := by
  obtain ⟨w, hw, halone⟩ := run_alone (flagsOwn_of_ownIds hrun hown) hrun
  exact ⟨w, hw, halone.session⟩

/-- Session 1 cancels the id `x` while session 0 speaks under the id `y`. -/
def apartRun : List (ServerAct Unit) :=
  [.sess 1 (.handle (.text (textOfX "" true 50))),
    .sess 0 (.handle (.text { textOfX "" false 50 with contextId := "y" })),
    .sess 1 (.handle (.cancel ⟨"x"⟩)), .sess 0 (.emit "y"), .sess 0 (.emit "y"),
    .sess 0 (.sent "y" none)]

theorem isolated_of_ownIds_apart : ∃ s w,
    run (Server.step silentOps) (Server.init Unit 1) apartRun = some s ∧
    s.pool.cancelled = {"x"} ∧ deliveries (s.sessions 0).trace = [Wire.encodeDone "y"] ∧
    run (Solo.step silentOps 0) (Solo.init Unit 1) (apartRun.flatMap (ServerAct.only 0)) =
      some w ∧ w.session = s.sessions 0 := by
  obtain ⟨s, hrun, hflags, hdone, htable, hother⟩ : ∃ s,
      run (Server.step silentOps) (Server.init Unit 1) apartRun = some s ∧
      s.pool.cancelled = {"x"} ∧ deliveries (s.sessions 0).trace = [Wire.encodeDone "y"] ∧
      ((s.sessions 0).closed = false ∧ (s.sessions 0).contexts = ["y"]) ∧ s.NoOther 0 "y" := by
    refine ⟨_, rfl, by decide +kernel, by decide +kernel, ⟨rfl, rfl⟩, fun sid hne => ?_⟩
    obtain ⟨k, rfl⟩ := Nat.exists_eq_succ_of_ne_zero hne
    cases k <;> rfl
  have hwf := Lib.run_inv (fun _ _ _ h hs => step_serverWf h hs) (init_serverWf 1) hrun
  have hown : s.OwnIds 0 := by
    intro c hc
    have hin := (hwf.sessions 0).complete htable.1 c hc
    rw [htable.2, List.mem_singleton] at hin
    rwa [hin]
  obtain ⟨w, hw, hsame⟩ := isolated_of_ownIds hrun hown
  exact ⟨s, w, hrun, hflags, hdone, hw, hsame⟩

end SupertonicServer
