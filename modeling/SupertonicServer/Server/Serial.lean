import SupertonicServer.Server.Deployment

/-!
# A worker with one call at a time

A worker asks its callers to take turns, and then it is the worker of `Worker/Basic.lean`: as
long as no job is started on a worker whose last one is still running, each worker has gone
through its calls one after the other, whatever happened on the others meanwhile. Its calls
have ended as those of `SupertonicWorker.synthesize` in that order, and between two of them it
is in the state `synthesize` leaves, hit counts included (`worker_serial`). Then no two calls
meet in a model either (`apart_of_clear`). Without turns the counts can be wrong even where no
two calls meet there (`hit_lost`), though not the outcomes (`outcomes_own`).
-/

namespace SupertonicServer

open Coalescer (Chunk)
open Audio (AudioOps)
open Pool
open Worker
open Lib (StepsMeet run)

variable {S F : Type} {ops : AudioOps F} {cfg : Config} {world : World S F}

/-- A start is clear when no job submitted a multiple of `n_workers` places before the started
one is still running. -/
def Deployment.Clear (d : Deployment S F) : DeployAct S F → Prop
  | .start owner => StartClear d.server.pool (.exec (.start owner))
  | _ => True

/-- The calls that have ended on worker `k`, with their outcomes. -/
def Deployment.endedOn (d : Deployment S F) (k : Nat) : List (Job × Outcome F) :=
  d.ended.filter fun e => e.1.worker = k

/-- The call a job is. -/
def Pool.Job.call (world : World S F) (j : Job) : Call S F :=
  { world := world, text := j.text, voiceName := j.voiceName }

/-- The calls that have ended on worker `k`. -/
def Deployment.callsOn (d : Deployment S F) (world : World S F) (k : Nat) : List (Call S F) :=
  (d.endedOn k).map fun e => e.1.call world

/-! ## In the model -/

/-- The call is in the model. -/
def Worker.CallPc.inModel : CallPc S F → Bool
  | .loading => true
  | .speaking _ => true
  | _ => false

/-- What a step of a call does to the count of its worker. -/
theorem callStep_calls {text : Chunk} {voiceName : String} {pc pc' : CallPc S F}
    {w w' : SupertonicWorker S} (hcount : pc.inModel = true → 0 < w.tts.calls)
    (h : CallPc.step cfg text voiceName (pc, w) world = some (pc', w')) :
    w'.tts.calls + pc.inModel.toNat = w.tts.calls + pc'.inModel.toNat := by
  have hleave : pc.inModel = true → w.leave.tts.calls + 1 = w.tts.calls := by
    intro hin
    have := hcount hin
    show w.tts.calls - 1 + 1 = w.tts.calls
    omega
  cases pc with
  | called | missed =>
    simp only [CallPc.step] at h
    split at h
    next =>
      cases h
      rfl
    next =>
      cases h
      rfl
  | listed | found =>
    cases h
    rfl
  | loading =>
    simp only [CallPc.step] at h
    split at h
    next =>
      cases h
      exact hleave rfl
    next =>
      cases h
      exact hleave rfl
  | loaded | styled | counted =>
    cases h
    rfl
  | speaking =>
    simp only [CallPc.step] at h
    split at h
    next =>
      cases h
      exact hleave rfl
    next =>
      cases h
      exact hleave rfl
  | ended => exact absurd h (by simp [CallPc.step])

/-- The running jobs on worker `k` whose calls are in its model. -/
def callsIn (running : List Job) (threads : Nat → CallPc S F) (k : Nat) : Nat :=
  running.countP fun j => j.worker = k && (threads j.idx).inModel

/-- A worker counts the calls in its model. -/
def Deployment.Counted (d : Deployment S F) : Prop :=
  ∀ k w, d.workers[k]? = some w → w.tts.calls = callsIn d.server.pool.running d.threads k

/-- Of the running jobs one goes on. -/
theorem callsIn_update {running : List Job} {threads : Nat → CallPc S F} {j : Job}
    (hdistinct : (running.map Job.idx).Nodup) (hj : j ∈ running) (pc : CallPc S F) :
    callsIn running (Function.update threads j.idx pc) j.worker + (threads j.idx).inModel.toNat =
      callsIn running threads j.worker + pc.inModel.toNat := by
  obtain ⟨before, after, rfl⟩ := List.append_of_mem hj
  rw [List.map_append, List.map_cons, List.nodup_middle, List.nodup_cons,
    ← List.map_append] at hdistinct
  have hsame : ∀ l : List Job, (∀ i ∈ l, i.idx ≠ j.idx) →
      callsIn l (Function.update threads j.idx pc) j.worker = callsIn l threads j.worker := by
    intro l hl
    refine List.countP_congr fun i hi => ?_
    rw [Function.update_of_ne (hl i hi)]
  have hne : ∀ i ∈ before ++ after, i.idx ≠ j.idx := by
    intro i hi heq
    exact hdistinct.1 (heq ▸ List.mem_map_of_mem hi)
  have hbefore := hsame before fun i hi => hne i (List.mem_append_left _ hi)
  have hafter := hsame after fun i hi => hne i (List.mem_append_right _ hi)
  unfold callsIn at hbefore hafter ⊢
  rw [List.countP_append, List.countP_append, List.countP_cons, List.countP_cons, hbefore, hafter,
    Function.update_self]
  cases (threads j.idx).inModel <;> cases pc.inModel <;> simp <;> omega

/-- On the other workers nothing changes. -/
theorem callsIn_other {running : List Job} {threads : Nat → CallPc S F} {j : Job} {k : Nat}
    (hdistinct : (running.map Job.idx).Nodup) (hj : j ∈ running) (hk : j.worker ≠ k)
    (pc : CallPc S F) :
    callsIn running (Function.update threads j.idx pc) k = callsIn running threads k := by
  refine List.countP_congr fun i hi => ?_
  by_cases hidx : i.idx = j.idx
  · obtain rfl := List.inj_on_of_nodup_map hdistinct hi hj hidx
    simp [hk]
  · rw [Function.update_of_ne hidx]

/-! ## A call among others -/

/-- The call that was made on a worker in the state `w₁` has got so far, undisturbed. -/
def UnderWay (cfg : Config) (world : World S F) (w₁ : SupertonicWorker S) (j : Job)
    (st : CallPc S F × SupertonicWorker S) : Prop :=
  st.1.outcome? = none ∧
    ∃ m, run (CallPc.step cfg j.text j.voiceName) (.called, w₁) (List.replicate m world) = some st

theorem UnderWay.next {w₁ : SupertonicWorker S} {j : Job} {st st' : CallPc S F × SupertonicWorker S}
    (h : UnderWay cfg world w₁ j st)
    (hstep : CallPc.step cfg j.text j.voiceName st world = some st')
    (hgoes : st'.1.outcome? = none) : UnderWay cfg world w₁ j st' := by
  obtain ⟨-, m, hm⟩ := h
  refine ⟨hgoes, m + 1, ?_⟩
  rw [List.replicate_succ', Lib.run_append, hm]
  exact (Lib.run_singleton st world).trans hstep

/-- Undisturbed, it ends as `synthesize` does. -/
theorem UnderWay.ends {w₁ : SupertonicWorker S} {j : Job} {st st' : CallPc S F × SupertonicWorker S}
    (hfree : w₁.tts = .free) (h : UnderWay cfg world w₁ j st)
    (hstep : CallPc.step cfg j.text j.voiceName st world = some st') {outcome : Outcome F}
    (hends : st'.1 = .ended outcome) :
    (outcome, st'.2) = w₁.synthesize cfg world j.text j.voiceName := by
  obtain ⟨-, m, hm⟩ := h
  obtain ⟨n, hn⟩ := call_alone cfg world j.text j.voiceName hfree
  have hm' : run (CallPc.step cfg j.text j.voiceName) (.called, w₁) (List.replicate (m + 1) world) =
      some st' := by
    rw [List.replicate_succ', Lib.run_append, hm]
    exact (Lib.run_singleton st world).trans hstep
  obtain ⟨pc, w'⟩ := st'
  obtain rfl : pc = .ended outcome := hends
  obtain ⟨hpc, hw⟩ := Prod.mk.inj (Lib.run_replicate_unique hm' rfl hn rfl)
  rw [CallPc.ended.inj hpc, hw]

/-! ## One worker after the other -/

/-- Worker `k` was `w₀` at first, has gone through the calls that ended on it, and is in one
more if a job is running on it whose call has not ended. -/
structure SerialOn (cfg : Config) (world : World S F) (k : Nat) (w₀ : SupertonicWorker S)
    (d : Deployment S F) : Prop where
  outcomes : (d.endedOn k).map Prod.snd = w₀.outcomes cfg (d.callsOn world k)
  busy : ∀ j ∈ d.server.pool.running, j.worker = k → (d.threads j.idx).outcome? = none →
    ∃ w, d.workers[k]? = some w ∧
      UnderWay cfg world (w₀.after cfg (d.callsOn world k)) j (d.threads j.idx, w)
  free : (∀ j ∈ d.server.pool.running, j.worker = k → (d.threads j.idx).outcome? ≠ none) →
    d.workers[k]? = some (w₀.after cfg (d.callsOn world k))

/-- Two jobs do not run on one worker. -/
theorem exclusive_job_eq {p : WorkerPool F} (h : Exclusive p) {i j : Job} (hi : i ∈ p.running)
    (hj : j ∈ p.running) (hworker : i.worker = j.worker) : i = j :=
  List.inj_on_of_nodup_map h hi hj hworker

section Steps

variable {k : Nat} {w₀ : SupertonicWorker S} {d d' : Deployment S F}

/-- The sessions and the executor leave the workers alone; a job that starts on worker `k`
finds it free. -/
theorem SerialOn.server (h : SerialOn cfg world k w₀ d) (hidx : Indexed d.server.pool d.threads)
    {a : DeployAct S F} {b : ServerAct F} {s : Server F} (hdoes : d.Does a b)
    (hb : d.server.step ops b = some s) (hex : Exclusive s.pool) :
    SerialOn cfg world k w₀ { d with server := s } := by
  rcases server_step_cases hb with ⟨sid, act, r, -, -, rfl⟩ | ⟨e, p, rfl, hp, rfl⟩
  · refine ⟨h.outcomes, ?_, ?_⟩
    · intro j hj
      exact h.busy j (by simpa using hj)
    · intro hfree
      exact h.free fun j hj => hfree j (by simpa using hj)
  · rcases exec_cases hp with ⟨_, j, rest, rfl, hqueue, -, -, rfl⟩ |
      ⟨owner, outcome, j, rfl, hj, -, hfind, rfl⟩
    · have hqueued : j ∈ d.server.pool.queued := by
        rw [hqueue]
        exact List.mem_cons_self
      refine ⟨h.outcomes, ?_, ?_⟩
      · intro i hi hworker hgoes
        rcases List.mem_append.mp hi with hold | hnew
        · exact h.busy i hold hworker hgoes
        · obtain rfl := List.mem_singleton.mp hnew
          -- nothing else runs on the worker
          have hworkers : d.workers[k]? = some (w₀.after cfg (d.callsOn world k)) := by
            refine h.free fun l hl hlk => ?_
            have hsame : l = i :=
                exclusive_job_eq hex (List.mem_append_left _ hl) hi (hlk.trans hworker.symm)
            have holder := hidx.fifo.older l hl i hqueued
            rw [hsame] at holder
            exact absurd holder (Nat.lt_irrefl _)
          refine ⟨_, hworkers, hgoes, 0, ?_⟩
          show some (CallPc.called, _) = some (d.threads i.idx, _)
          rw [hidx.waiting i hqueued]
          rfl
      · intro hfree
        exact h.free fun i hi => hfree i (List.mem_append_left _ hi)
    · obtain ⟨before, after, hsplit, herase⟩ := eraseP_of_find? hfind
      refine ⟨h.outcomes, ?_, ?_⟩
      · intro i hi
        exact h.busy i (List.mem_of_mem_eraseP hi)
      · intro hfree
        refine h.free fun i hi hworker => ?_
        by_cases hij : i = j
        · obtain ⟨j', hj', hended⟩ : ∃ j', d.server.pool.running.find?
              (fun j => j.owner = owner) = some j' ∧ d.threads j'.idx = .ended outcome := by
            cases hdoes with
            | finish _ _ j' hj' hended => exact ⟨j', hj', hended⟩
          obtain rfl : j = j' := Option.some.inj (hfind.symm.trans hj')
          rw [hij, hended]
          simp [CallPc.outcome?]
        · refine hfree i ?_ hworker
          show i ∈ d.server.pool.running.eraseP _
          rw [herase]
          rw [hsplit] at hi
          simpa [hij] using hi

/-- A call makes an entry where it ends, and on its own worker. -/
theorem endedOn_moved (j : Job) (st : CallPc S F × SupertonicWorker S) :
    (d.moved j st).endedOn k =
      d.endedOn k ++ (st.1.outcome?.toList.map fun outcome => (j, outcome)).filter
        fun e => e.1.worker = k := by
  unfold Deployment.endedOn
  rw [Deployment.moved, List.filter_append]

theorem endedOn_other {j : Job} {st : CallPc S F × SupertonicWorker S} (h : j.worker ≠ k) :
    (d.moved j st).endedOn k = d.endedOn k := by
  rw [endedOn_moved, List.append_right_eq_self, List.filter_eq_nil_iff]
  intro e he
  obtain ⟨outcome, -, rfl⟩ := List.mem_map.mp he
  simpa using h

/-- A thread goes on by one operation of a call on worker `k`. -/
theorem SerialOn.own {j : Job} {w : SupertonicWorker S} {st : CallPc S F × SupertonicWorker S}
    (hfree : w₀.tts = .free) (h : SerialOn cfg world k w₀ d) (hex : Exclusive d.server.pool)
    (hj : j ∈ d.server.pool.running) (hk : j.worker = k) (hw : d.workers[k]? = some w)
    (hst : CallPc.step cfg j.text j.voiceName (d.threads j.idx, w) world = some st) :
    SerialOn cfg world k w₀ (d.moved j st) := by
  have hgoing : (d.threads j.idx).outcome? = none := by
    cases hpc : d.threads j.idx with
    | ended =>
      rw [hpc] at hst
      exact absurd hst (by simp [CallPc.step])
    | _ => rfl
  obtain ⟨w', hw', hunder⟩ := h.busy j hj hk hgoing
  obtain rfl : w = w' := Option.some.inj (hw.symm.trans hw')
  have hset : (d.moved j st).workers[k]? = some st.2 := by
    subst hk
    exact List.getElem?_set_self (List.getElem?_eq_some_iff.mp hw).1
  have hpc : (d.moved j st).threads j.idx = st.1 := Function.update_self ..
  -- no other job runs on this worker
  have honly : ∀ i ∈ (d.moved j st).server.pool.running, i.worker = k → i = j :=
    fun i hi hworker => exclusive_job_eq hex hi hj (hworker.trans hk.symm)
  cases hout : st.1.outcome? with
  | none =>
    have hsame : (d.moved j st).endedOn k = d.endedOn k := by
      rw [endedOn_moved, hout]
      exact List.append_nil _
    have hcalls : (d.moved j st).callsOn world k = d.callsOn world k := by
      rw [Deployment.callsOn, hsame, Deployment.callsOn]
    refine ⟨by rw [hsame, hcalls]; exact h.outcomes, ?_, ?_⟩
    · intro i hi hworker _
      obtain rfl := honly i hi hworker
      rw [hpc, hcalls]
      exact ⟨st.2, hset, hunder.next hst hout⟩
    · intro hfree
      exact absurd (by rw [hpc, hout]) (hfree j hj hk)
  | some outcome =>
    have hends := hunder.ends ((after_tts cfg w₀ _).trans hfree) hst (ended_of_outcome hout)
    have hmore : (d.moved j st).endedOn k = d.endedOn k ++ [(j, outcome)] := by
      rw [endedOn_moved, hout]
      simp [hk]
    have hcalls : (d.moved j st).callsOn world k = d.callsOn world k ++ [j.call world] := by
      rw [Deployment.callsOn, hmore, List.map_append, ← Deployment.callsOn]
      rfl
    refine ⟨?_, ?_, ?_⟩
    · rw [hmore, hcalls, List.map_append, h.outcomes, outcomes_append]
      exact congrArg (_ ++ [·]) (Prod.mk.inj hends).1
    · intro i hi hworker hgoes
      obtain rfl := honly i hi hworker
      rw [hpc, hout] at hgoes
      exact absurd hgoes (by simp)
    · intro _
      rw [hset, hcalls, after_append]
      exact congrArg some (Prod.mk.inj hends).2

/-- A thread goes on by one operation of a call on another worker. -/
theorem SerialOn.other {j : Job} {st : CallPc S F × SupertonicWorker S}
    (h : SerialOn cfg world k w₀ d) (hidx : Indexed d.server.pool d.threads)
    (hj : j ∈ d.server.pool.running) (hk : j.worker ≠ k) :
    SerialOn cfg world k w₀ (d.moved j st) := by
  have hworkers : (d.moved j st).workers[k]? = d.workers[k]? := List.getElem?_set_ne hk
  have hsame : (d.moved j st).endedOn k = d.endedOn k := endedOn_other hk
  have hcalls : (d.moved j st).callsOn world k = d.callsOn world k := by
    rw [Deployment.callsOn, hsame, Deployment.callsOn]
  have hthread : ∀ i ∈ (d.moved j st).server.pool.running, i.worker = k →
      (d.moved j st).threads i.idx = d.threads i.idx := by
    intro i hi hworker
    refine Function.update_of_ne (fun heq => hk ?_) _ _
    rw [← hidx.job_eq hi hj heq]
    exact hworker
  refine ⟨by rw [hsame, hcalls]; exact h.outcomes, ?_, ?_⟩
  · intro i hi hworker hgoes
    rw [hthread i hi hworker] at hgoes ⊢
    rw [hcalls, hworkers]
    exact h.busy i hi hworker hgoes
  · intro hfree
    rw [hcalls, hworkers]
    refine h.free fun i hi hworker => ?_
    rw [← hthread i hi hworker]
    exact hfree i hi hworker

/-- A step of the server that starts no job on a worker where another runs. -/
theorem server_exclusive {s s' : Server F} {b : ServerAct F} (hfifo : FifoInv s.pool)
    (hex : Exclusive s.pool) (hb : s.step ops b = some s')
    (hclear : ∀ owner, b = .exec (.start owner) → StartClear s.pool (.exec (.start owner))) :
    Exclusive s'.pool := by
  rcases server_step_cases hb with ⟨_, _, r, -, -, rfl⟩ | ⟨e, p, rfl, hp, rfl⟩
  · show ((s.pool.calls r.2).running.map Job.worker).Nodup
    rw [calls_running]
    exact hex
  · refine step_exclusive hfifo hex ?_ (show s.pool.step (.exec e) = some p from hp)
    cases e with
    | start owner => exact hclear owner rfl
    | finish owner outcome => trivial

/-- A step that starts no job on a worker where another runs. -/
theorem step_deploy_exclusive {a : DeployAct S F} (hidx : Indexed d.server.pool d.threads)
    (hex : Exclusive d.server.pool) (hclear : d.Clear a) (hstep : d.step ops cfg a = some d') :
    Exclusive d'.server.pool := by
  rcases deploy_cases hstep with ⟨b, s, hdoes, hb, rfl⟩ | ⟨_, _, _, _, -, -, -, -, rfl⟩
  · refine server_exclusive hidx.fifo hex hb fun owner hb => ?_
    subst hb
    cases hdoes with
    | start => exact hclear
  · exact hex

theorem step_deploy_indexed {a : DeployAct S F} (hidx : Indexed d.server.pool d.threads)
    (hstep : d.step ops cfg a = some d') : Indexed d'.server.pool d'.threads := by
  rcases deploy_cases hstep with ⟨b, s, -, hb, rfl⟩ | ⟨_, j, _, st, -, hj, -, -, rfl⟩
  · exact step_indexed hidx hb
  · exact hidx.thread hj st.1

/-- The sessions and the executor take no call into a model, or out of it. -/
theorem callsIn_server (hidx : Indexed d.server.pool d.threads) {a : DeployAct S F}
    {b : ServerAct F} {s : Server F} (hdoes : d.Does a b) (hb : d.server.step ops b = some s)
    (k : Nat) : callsIn s.pool.running d.threads k =
      callsIn d.server.pool.running d.threads k := by
  rcases server_step_cases hb with ⟨sid, act, r, -, -, rfl⟩ | ⟨e, p, rfl, hp, rfl⟩
  · show callsIn (d.server.pool.calls r.2).running _ _ = _
    rw [calls_running]
  · rcases exec_cases hp with ⟨_, j, rest, rfl, hqueue, -, -, rfl⟩ |
      ⟨owner, outcome, j, rfl, -, -, hfind, rfl⟩
    · have hcalled : d.threads j.idx = .called := hidx.waiting j (by
        rw [hqueue]
        exact List.mem_cons_self)
      show List.countP _ (d.server.pool.running ++ [j]) = _
      rw [List.countP_append]
      simp [callsIn, hcalled, CallPc.inModel]
    · obtain ⟨before, after, hsplit, herase⟩ := eraseP_of_find? hfind
      have hended : d.threads j.idx = .ended outcome := by
        cases hdoes with
        | finish _ _ j' hj' hended =>
          obtain rfl : j = j' := Option.some.inj (hfind.symm.trans hj')
          exact hended
      show callsIn (d.server.pool.running.eraseP _) _ _ = _
      rw [herase, hsplit]
      simp [callsIn, hended, CallPc.inModel]

/-- **The counts of the workers are right** after every step. -/
theorem step_counted {a : DeployAct S F} (hidx : Indexed d.server.pool d.threads)
    (h : d.Counted) (hstep : d.step ops cfg a = some d') : d'.Counted := by
  rcases deploy_cases hstep with ⟨b, s, hdoes, hb, rfl⟩ | ⟨_, j, w, st, -, hj, hw, hst, rfl⟩
  · intro k w hw
    exact (h k w hw).trans (callsIn_server hidx hdoes hb k).symm
  · intro k w' hw'
    by_cases hk : j.worker = k
    · subst hk
      have hset : (d.moved j st).workers[j.worker]? = some st.2 :=
        List.getElem?_set_self (List.getElem?_eq_some_iff.mp hw).1
      obtain rfl : st.2 = w' := Option.some.inj (hset.symm.trans hw')
      -- the job itself is counted, so there is someone to leave
      have hcount : (d.threads j.idx).inModel = true → 0 < w.tts.calls := by
        intro hin
        rw [h _ w hw]
        exact List.countP_pos_iff.mpr ⟨j, hj, by simp [hin]⟩
      have hcalls := callStep_calls hcount hst
      have hmoved : callsIn d.server.pool.running (Function.update d.threads j.idx st.1) j.worker +
          (d.threads j.idx).inModel.toNat =
          callsIn d.server.pool.running d.threads j.worker + st.1.inModel.toNat :=
        callsIn_update hidx.distinct hj st.1
      rw [h _ w hw] at hcalls
      show st.2.tts.calls =
        callsIn d.server.pool.running (Function.update d.threads j.idx st.1) j.worker
      omega
    · have hold : d.workers[k]? = some w' := (List.getElem?_set_ne hk).symm.trans hw'
      rw [h k w' hold]
      exact (callsIn_other hidx.distinct hj hk st.1).symm

/-- What a step keeps that starts no job on a worker where another runs. -/
theorem step_serial {a : DeployAct S F} (hfree : w₀.tts = .free) (h : SerialOn cfg world k w₀ d)
    (hidx : Indexed d.server.pool d.threads) (hex : Exclusive d.server.pool)
    (hclear : d.Clear a) (hin : a.Within (· = world)) (hstep : d.step ops cfg a = some d') :
    SerialOn cfg world k w₀ d' ∧ Indexed d'.server.pool d'.threads ∧ Exclusive d'.server.pool := by
  have hex' := step_deploy_exclusive hidx hex hclear hstep
  refine ⟨?_, step_deploy_indexed hidx hstep, hex'⟩
  rcases deploy_cases hstep with ⟨b, s, hdoes, hb, rfl⟩ |
    ⟨world', j, w, st, rfl, hj, hw, hst, rfl⟩
  · exact h.server hidx hdoes hb hex'
  · obtain rfl : world' = world := hin
    by_cases hk : j.worker = k
    · exact h.own hfree hex hj hk (hk ▸ hw) hst
    · exact h.other hidx hj hk

end Steps

/-- **Calls that take turns are calls one after another.** If no job is ever started on a worker
whose last one is still running, and the catalog and the model stay as they are, then in every
state reached, whatever goes on on the other workers: the calls that have ended on a worker have
ended as `synthesize` ends them in that order; and where no call is under way on it, it is in the
state they leave it in. -/
theorem worker_serial {n : ℕ+} {workers : List (SupertonicWorker S)}
    {acts : List (DeployAct S F)}
    (hclear : StepsMeet (Deployment.step ops cfg) Deployment.Clear
      (Deployment.init F n workers) acts)
    (hin : ∀ a ∈ acts, a.Within (· = world)) {d : Deployment S F}
    (hrun : run (Deployment.step ops cfg) (Deployment.init F n workers) acts = some d)
    {k : Nat} {w₀ : SupertonicWorker S} (hk : workers[k]? = some w₀) (hfree : w₀.tts = .free) :
    (d.endedOn k).map Prod.snd = w₀.outcomes cfg (d.callsOn world k) ∧
    ((∀ j ∈ d.server.pool.running, j.worker = k → (d.threads j.idx).outcome? ≠ none) →
      d.workers[k]? = some (w₀.after cfg (d.callsOn world k))) := by
  have hmeets : StepsMeet (Deployment.step ops cfg)
      (fun d a => Deployment.Clear d a ∧ DeployAct.Within (· = world) a)
      (Deployment.init F n workers) acts := by
    intro pre a post s s' hsplit hpre hstep
    exact ⟨hclear pre a post s s' hsplit hpre hstep, hin a (by rw [hsplit]; simp)⟩
  have hinit : SerialOn cfg world k w₀ (Deployment.init F n workers) :=
    ⟨rfl, fun j hj => absurd hj List.not_mem_nil, fun _ => hk⟩
  obtain ⟨hserial, -, -⟩ := Lib.run_inv_of
    (I := fun d => SerialOn cfg world k w₀ d ∧ Indexed d.server.pool d.threads ∧
      Exclusive d.server.pool)
    (fun d a d' h hP hs => step_serial hfree h.1 h.2.1 h.2.2 hP.1 hP.2 hs) hmeets
    ⟨hinit, init_indexed n, List.nodup_nil⟩ hrun
  exact ⟨hserial.outcomes, hserial.free⟩

/-- **The calls in a model keep apart if the calls of its worker take turns.** -/
theorem apart_of_clear {n : ℕ+} {workers : List (SupertonicWorker S)}
    (hfree : ∀ w ∈ workers, w.tts = .free) {acts : List (DeployAct S F)}
    (hclear : StepsMeet (Deployment.step ops cfg) Deployment.Clear
      (Deployment.init F n workers) acts) :
    StepsMeet (Deployment.step ops cfg) Deployment.Apart (Deployment.init F n workers) acts := by
  intro pre a post d d' hsplit hpre hstep
  rw [hsplit] at hclear
  obtain ⟨hidx, hex, hcounted⟩ : Indexed d.server.pool d.threads ∧ Exclusive d.server.pool ∧
      d.Counted := by
    refine Lib.run_inv_of (I := fun d : Deployment S F => Indexed d.server.pool d.threads ∧
      Exclusive d.server.pool ∧ d.Counted) (fun d a d' h hc hs =>
        ⟨step_deploy_indexed h.1 hs, step_deploy_exclusive h.1 h.2.1 hc hs,
          step_counted h.1 h.2.2 hs⟩)
      hclear.take ⟨init_indexed n, (List.nodup_nil : Exclusive (WorkerPool.started F n)), ?_⟩ hpre
    intro k w hw
    rw [hfree w (List.mem_of_getElem? hw)]
    rfl
  cases a with
  | thread idx world =>
    intro j hj w hw henters
    obtain ⟨hrunning, rfl⟩ := job?_mem hj
    rw [hcounted _ w hw]
    refine List.countP_eq_zero.mpr fun i hi => ?_
    by_cases hworker : i.worker = j.worker
    · -- the job is alone on its worker, and still in front of the model
      obtain rfl := exclusive_job_eq hex hi hrunning hworker
      cases hpc : d.threads i.idx with
      | loading | speaking =>
        rw [hpc] at henters
        exact absurd henters (by simp [CallPc.enters])
      | _ => simp [CallPc.inModel]
    · simp [hworker]
  | sess | start | finish => trivial

/-- A pool of one worker has one thread, so its calls take turns. -/
theorem steps_clear_of_single {workers : List (SupertonicWorker S)}
    {acts : List (DeployAct S F)} :
    StepsMeet (Deployment.step ops cfg) Deployment.Clear (Deployment.init F 1 workers) acts := by
  intro pre a post d d' _ hpre hstep
  have hone : d.server.pool.nWorkers = 1 := by
    refine Lib.run_inv (I := fun d : Deployment S F => d.server.pool.nWorkers = 1) ?_ rfl hpre
    intro d a d' h hs
    rcases deploy_cases hs with ⟨b, s, -, hb, rfl⟩ | ⟨_, _, _, _, -, -, -, -, rfl⟩
    · exact (server_step_nWorkers hb).trans h
    · exact h
  cases a with
  | start owner =>
    obtain ⟨s, hs, rfl⟩ := Option.map_eq_some_iff.mp hstep
    obtain ⟨p, hp, rfl⟩ := Option.map_eq_some_iff.mp hs
    exact startClear_of_single hone
      (show d.server.pool.step (.exec (.start owner)) = some p from hp)
  | _ => trivial

/-- On one worker, after the one utterance: the worker is as that call leaves it. -/
theorem worker_serial_one_voice : ∃ d w₀,
    run (Deployment.step silentOps defaultConfig) (Deployment.init Unit 1 (oneVoiceWorkers.take 1))
      deployedRun = some d ∧
    oneVoiceWorkers[0]? = some w₀ ∧ d.callsOn oneVoice 0 = [⟨oneVoice, "Hi.".toList, "F1"⟩] ∧
    d.workers[0]? = some (w₀.after defaultConfig (d.callsOn oneVoice 0)) := by
  obtain ⟨d, hrun⟩ : ∃ d, run (Deployment.step silentOps defaultConfig)
      (Deployment.init Unit 1 (oneVoiceWorkers.take 1)) deployedRun = some d :=
    Option.isSome_iff_exists.mp (by decide +kernel)
  obtain ⟨w₀, hw₀⟩ : ∃ w₀, oneVoiceWorkers[0]? = some w₀ :=
    Option.isSome_iff_exists.mp (by decide +kernel)
  have hfirst : (oneVoiceWorkers.take 1)[0]? = some w₀ := by
    rw [List.getElem?_take_of_lt (by decide), hw₀]
  have hread := Lib.run_reads (f := fun d => (d.server.pool.running,
      d.ended.map fun e => (e.1.worker, e.1.text, e.1.voiceName)))
    (b := ([], [(0, "Hi.".toList, "F1")])) hrun (by decide +kernel)
  obtain ⟨hrunning, hended⟩ := Prod.mk.inj hread
  have hcalls : d.callsOn oneVoice 0 = [⟨oneVoice, "Hi.".toList, "F1"⟩] := by
    obtain ⟨⟨j, outcome⟩, hone, hj⟩ := List.map_eq_singleton_iff.mp hended
    obtain ⟨hworker, htext⟩ := Prod.mk.inj hj
    obtain ⟨htext, hvoice⟩ := Prod.mk.inj htext
    simp only at hworker htext hvoice
    simp [Deployment.callsOn, Deployment.endedOn, hone, hworker, Pool.Job.call, htext, hvoice]
  obtain ⟨providers, hwarmed⟩ := oneVoiceWorkers_warmed
  have hfree : w₀.tts = .free := (hwarmed w₀ (List.mem_of_getElem? hw₀)).tts
  refine ⟨d, w₀, hrun, hw₀, hcalls, ?_⟩
  refine (worker_serial steps_clear_of_single deployedRun_within hrun hfirst hfree).2 ?_
  intro j hj
  rw [hrunning] at hj
  exact absurd hj List.not_mem_nil

/-- Three sessions say the same on two workers. Job `1` overtakes job `0`, so job `2` starts
beside it on worker `0`, and the two count their hits in turns, but go into the model one after
the other. -/
def lostRun : List (DeployAct Unit Unit) :=
  List.flatten [
    [0, 1, 2].flatMap fun sid => [.sess sid (.handle (.text (textOfX "Hi." false 50))),
      .sess sid (.emit "x"), .sess sid (.emit "x")],
    [.start ⟨0, "x"⟩, .start ⟨1, "x"⟩],
    List.replicate 5 (.thread 1 oneVoice),
    [.finish ⟨1, "x"⟩, .start ⟨2, "x"⟩],
    (List.replicate 3 [.thread 0 oneVoice, .thread 2 oneVoice]).flatten,
    [.thread 0 oneVoice, .thread 0 oneVoice, .thread 2 oneVoice, .thread 2 oneVoice]]

/-- The hit of one call is lost: one after another they would have made three, with the hit of
the warm-up. -/
theorem hit_lost :
    StepsMeet (Deployment.step silentOps defaultConfig) Deployment.Apart
      (Deployment.init Unit 2 oneVoiceWorkers) lostRun ∧
    ∃ d w₀ w, run (Deployment.step silentOps defaultConfig) (Deployment.init Unit 2 oneVoiceWorkers)
      lostRun = some d ∧
    oneVoiceWorkers[0]? = some w₀ ∧ d.workers[0]? = some w ∧ w.styleHitCount "F1" = 2 ∧
    (w₀.after defaultConfig (d.callsOn oneVoice 0)).styleHitCount "F1" = 3 := by
  refine ⟨by decide +kernel, ?_⟩
  obtain ⟨d, hrun⟩ : ∃ d, run (Deployment.step silentOps defaultConfig)
      (Deployment.init Unit 2 oneVoiceWorkers) lostRun = some d :=
    Option.isSome_iff_exists.mp (by decide +kernel)
  have hread := Lib.run_reads (f := fun d => (d.workers[0]?.map fun w => w.styleHitCount "F1",
      oneVoiceWorkers[0]?.map fun w =>
        (w.after defaultConfig (d.callsOn oneVoice 0)).styleHitCount "F1"))
    (b := (some 2, some 3)) hrun (by decide +kernel)
  obtain ⟨hlost, hserial⟩ := Prod.mk.inj hread
  obtain ⟨w, hw, hhits⟩ := Option.map_eq_some_iff.mp hlost
  obtain ⟨w₀, hw₀, hhits₀⟩ := Option.map_eq_some_iff.mp hserial
  exact ⟨d, w₀, w, hrun, hw₀, hw, hhits, hhits₀⟩

end SupertonicServer
