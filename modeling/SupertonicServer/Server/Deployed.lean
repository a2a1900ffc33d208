import Mathlib.Algebra.Order.BigOperators.Group.List
import SupertonicServer.Server.Client
import SupertonicServer.Server.Deployment
import SupertonicServer.Server.Settles

/-!
# What a deployment comes to

The two ends of a run with real workers. It comes to rest: between two steps of the server the
threads take only so many steps, and none of them waits for another (`deployment_settles`). And
at rest the client has heard what a worker of its own would have said: the samples of its text,
in the voice it asked for, spoken by the model (`spoken_at_rest`).
-/

namespace SupertonicServer

open Coalescer (Chunk)
open Wire (IncomingText)
open Audio (AudioOps Servable nativeSr)
open Pool
open Worker
open Lib (Descends RunsOn Settled StepsMeet run)

variable {S F : Type} {ops : AudioOps F} {cfg : Config}

/-! ## Coming to rest -/

/-- The steps that take no new input from a client. -/
def DeployAct.Inner : DeployAct S F → Prop
  | .sess sid a => (ServerAct.sess (F := F) sid a).Inner
  | _ => True

/-- The operations a call may still make. -/
def Worker.CallPc.left : CallPc S F → Nat
  | .called => 9
  | .missed => 8
  | .listed => 7
  | .loading => 6
  | .loaded _ => 5
  | .styled _ => 4
  | .counted _ _ => 3
  | .found _ => 2
  | .speaking _ => 1
  | .ended _ => 0

theorem callStep_left {text : Chunk} {voiceName : String} {pc pc' : CallPc S F}
    {w w' : SupertonicWorker S} {world : World S F}
    (h : CallPc.step cfg text voiceName (pc, w) world = some (pc', w')) : pc'.left < pc.left := by
  cases pc with
  | called | missed | loading | speaking =>
    simp only [CallPc.step] at h
    split at h
    next =>
      cases h
      simp [CallPc.left]
    next =>
      cases h
      simp [CallPc.left]
  | listed | loaded | styled | counted | found =>
    cases h
    simp [CallPc.left]
  | ended => exact absurd h (by simp [CallPc.step])

/-- Only a call that has ended makes no step. -/
theorem callStep_none {text : Chunk} {voiceName : String} {pc : CallPc S F}
    {w : SupertonicWorker S} {world : World S F}
    (h : CallPc.step cfg text voiceName (pc, w) world = none) :
    ∃ outcome, pc.outcome? = some outcome := by
  cases pc with
  | called | missed | loading | speaking =>
    simp only [CallPc.step] at h
    split at h <;> exact absurd h (by simp)
  | listed | loaded | styled | counted | found => exact absurd h (by simp [CallPc.step])
  | ended outcome => exact ⟨outcome, rfl⟩

/-- The operations the running calls may still make. -/
def Deployment.left (d : Deployment S F) : Nat :=
  (d.server.pool.running.map fun j => (d.threads j.idx).left).sum

/-- The workers are those of the pool. -/
structure Deployment.Staffed (n : ℕ+) (d : Deployment S F) : Prop where
  sound : d.server.Sound
  indexed : Indexed d.server.pool d.threads
  size : d.server.pool.nWorkers = n
  workers : d.workers.length = n

theorem step_staffed {n : ℕ+} {d d' : Deployment S F} {a : DeployAct S F} (h : d.Staffed n)
    (hstep : d.step ops cfg a = some d') : d'.Staffed n := by
  rcases deploy_cases hstep with ⟨b, s, -, hb, rfl⟩ | ⟨_, j, _, st, -, hrunning, -, -, rfl⟩
  · exact ⟨step_sound h.sound hb, step_indexed h.indexed hb,
      (server_step_nWorkers hb).trans h.size, h.workers⟩
  · refine ⟨h.sound, h.indexed.thread hrunning st.1, h.size, ?_⟩
    rw [← h.workers]
    exact List.length_set

theorem run_staffed {n : ℕ+} {workers : List (SupertonicWorker S)} (hworkers : workers.length = n)
    {acts : List (DeployAct S F)} {d : Deployment S F}
    (hrun : run (Deployment.step ops cfg) (Deployment.init F n workers) acts = some d) :
    d.Staffed n :=
  Lib.run_inv (fun _ _ _ h hs => step_staffed h hs)
    ⟨init_sound n, init_indexed n, rfl, hworkers⟩ hrun

/-- A running job has a worker. -/
theorem Deployment.Staffed.worker {n : ℕ+} {d : Deployment S F} (h : d.Staffed n) {j : Job}
    (hj : j ∈ d.server.pool.running) : ∃ w, d.workers[j.worker]? = some w := by
  have hlt : j.worker < d.workers.length := by
    rw [h.workers, h.indexed.fifo.running_worker j hj, h.size]
    exact Nat.mod_lt _ n.pos
  exact ⟨_, List.getElem?_eq_getElem hlt⟩

/-- An inner step is one of the server, or one operation of a call less. -/
theorem inner_deploy_cases {d d' : Deployment S F} {a : DeployAct S F} (hinner : a.Inner)
    (hstep : d.step ops cfg a = some d') :
    (∃ b, ServerAct.Inner b ∧ d.server.step ops b = some d'.server) ∨
      (d'.server = d.server ∧ d'.left < d.left) := by
  rcases deploy_cases hstep with ⟨b, s, hdoes, hb, rfl⟩ | ⟨_, j, _, st, -, hrunning, -, hst, rfl⟩
  · refine Or.inl ⟨b, ?_, hb⟩
    cases hdoes with
    | sess => exact hinner
    | start | finish => trivial
  · have hless : st.1.left < (d.threads j.idx).left := callStep_left hst
    refine Or.inr ⟨rfl, List.sum_lt_sum _ _ ?_ ⟨j, hrunning, ?_⟩⟩
    · intro i _
      show (Function.update d.threads j.idx st.1 i.idx).left ≤ _
      by_cases hidx : i.idx = j.idx
      · rw [hidx, Function.update_self]
        omega
      · rw [Function.update_of_ne hidx]
    · show (Function.update d.threads j.idx st.1 j.idx).left < _
      rw [Function.update_self]
      exact hless

/-- Where no inner step is left, nothing is left in the pool either. -/
theorem staffed_running {n : ℕ+} {d : Deployment S F} (h : d.Staffed n) (world : World S F)
    (hset : Settled (Deployment.step ops cfg) DeployAct.Inner d) :
    d.server.pool.running = [] := by
  cases hr : d.server.pool.running with
  | nil => rfl
  | cons i rest =>
    exfalso
    -- the job that would be finished for the owner of the first
    obtain ⟨j, hj⟩ : ∃ j, d.server.pool.running.find? (fun k => k.owner = i.owner) = some j := by
      rw [hr]
      exact ⟨i, List.find?_cons_of_pos (by simp)⟩
    have hrunning := List.mem_of_find?_eq_some hj
    obtain ⟨w, hw⟩ := h.worker hrunning
    have hjob := h.indexed.job? hrunning
    have hthread := hset (.thread j.idx world) trivial
    simp only [Deployment.step, Deployment.goOn, hjob, hw, Option.map_eq_none_iff] at hthread
    -- the call can make no step, so it has ended and can be finished
    obtain ⟨outcome, houtcome⟩ := callStep_none hthread
    have hfinish := hset (.finish i.owner) trivial
    simp only [Deployment.step, hj, houtcome, Deployment.act, Server.step, Option.map_eq_none_iff,
      WorkerPool.exec] at hfinish
    exact absurd hfinish (by simp)

/-- A deployment can make no inner step exactly when its server is at rest. -/
theorem settled_iff_server_atRest {n : ℕ+} {d : Deployment S F} (h : d.Staffed n)
    (world : World S F) :
    Settled (Deployment.step ops cfg) DeployAct.Inner d ↔ d.server.AtRest := by
  rw [← @settled_iff_atRest F ops d.server h.sound]
  constructor
  · intro hset b hb
    have hrunning := staffed_running h world hset
    cases b with
    | sess sid act => exact Option.map_eq_none_iff.mp (hset (.sess sid act) hb)
    | exec e =>
      cases e with
      | start owner => exact Option.map_eq_none_iff.mp (hset (.start owner) trivial)
      | finish owner outcome => simp [Server.step, WorkerPool.exec, hrunning]
  · intro hset a ha
    have hrunning := ((settled_iff_atRest h.sound).mp hset).running
    cases a with
    | sess sid act => exact Option.map_eq_none_iff.mpr (hset (.sess sid act) ha)
    | start owner => exact Option.map_eq_none_iff.mpr (hset (.exec (.start owner)) trivial)
    | thread idx world => simp [Deployment.step, Deployment.goOn, Deployment.job?, hrunning]
    | finish owner => simp [Deployment.step, hrunning]

/-- **A deployment comes to rest**, from every state its runs reach: no schedule of inner steps
goes on for ever, however it mixes the sessions, the executor and the threads; some schedule
ends at rest; and where no inner step is left the server is at rest. -/
theorem deployment_settles {n : ℕ+} {workers : List (SupertonicWorker S)}
    (hworkers : workers.length = n) {acts : List (DeployAct S F)} {d : Deployment S F}
    (hrun : run (Deployment.step ops cfg) (Deployment.init F n workers) acts = some d)
    (world : World S F) :
    ¬ RunsOn (Deployment.step ops cfg) DeployAct.Inner d ∧
    (∃ more d', (∀ a ∈ more, a.Inner) ∧ run (Deployment.step ops cfg) d more = some d' ∧
      d'.server.AtRest) ∧
    (Settled (Deployment.step ops cfg) DeployAct.Inner d ↔ d.server.AtRest) := by
  have hstaffed := run_staffed hworkers hrun
  obtain ⟨sacts, hserver⟩ := run_server hrun
  obtain ⟨K, V, hcov⟩ := exists_covered hserver
  have hdown : Descends (Deployment.step ops cfg) DeployAct.Inner
      (fun d : Deployment S F => (d.server.Wf ∧ d.server.Covered K V) ∧ d.Staffed n)
      (Prod.Lex (Prod.Lex (· < ·) (· < ·)) (· < ·))
      (fun d => ((d.server.work K V, d.server.framesLeft K), d.left)) :=
    inner_descends.refine (fun h _ hs => step_staffed h hs)
      (fun _ ha hs => inner_deploy_cases ha hs)
  have hwf := WellFounded.prod_lex
    (WellFounded.prod_lex (wellFounded_lt (α := Nat)) (wellFounded_lt (α := Nat)))
    (wellFounded_lt (α := Nat))
  have hI : (d.server.Wf ∧ d.server.Covered K V) ∧ d.Staffed n :=
    ⟨⟨hstaffed.sound.wf, hcov⟩, hstaffed⟩
  refine ⟨hdown.not_runsOn hwf hI, ?_, settled_iff_server_atRest hstaffed world⟩
  obtain ⟨more, d', hmore, hrun', hset⟩ := hdown.exists_settled hwf hI
  have hstaffed' : d'.Staffed n := Lib.run_inv (fun _ _ _ h hs => step_staffed h hs) hstaffed hrun'
  exact ⟨more, d', hmore, hrun', (settled_iff_server_atRest hstaffed' world).mp hset⟩

/-- A frame is handled by session 0: the deployment is not at rest, and gets there. -/
theorem deployment_settles_handled : ∃ d,
    run (Deployment.step silentOps defaultConfig) (Deployment.init Unit 2 oneVoiceWorkers)
      [.sess 0 (.handle (.text (textOfX "Hi." false 50)))] = some d ∧
    ¬ RunsOn (Deployment.step silentOps defaultConfig) DeployAct.Inner d ∧
    ∃ more d', (∀ a ∈ more, a.Inner) ∧
      run (Deployment.step silentOps defaultConfig) d more = some d' ∧ d'.server.AtRest := by
  obtain ⟨d, hrun⟩ : ∃ d,
      run (Deployment.step silentOps defaultConfig) (Deployment.init Unit 2 oneVoiceWorkers)
        [.sess 0 (.handle (.text (textOfX "Hi." false 50)))] = some d := ⟨_, rfl⟩
  obtain ⟨hends, hrest, -⟩ :=
    deployment_settles (show oneVoiceWorkers.length = (2 : ℕ+) by decide +kernel) hrun oneVoice
  exact ⟨d, hrun, hends, hrest⟩

/-! ## What is heard -/

/-- The samples a worker of its own would have made of a chunk. -/
def speech (cfg : Config) (world : World S F) (voiceName : String) (chunk : Chunk) : List F :=
  match synthesizePlain cfg world chunk voiceName with
  | .ok result => result.wavF32
  | .error _ => []

theorem synthesizePlain_ok {world : World S F} {voiceName : String} {chunk : Chunk}
    {r : Audio.SynthResult F} (h : synthesizePlain cfg world chunk voiceName = .ok r) :
    r = ⟨speech cfg world voiceName chunk, nativeSr⟩ := by
  have hwav : speech cfg world voiceName chunk = r.wavF32 := by
    rw [speech, h]
  have hrate : r.sampleRate = nativeSr := by
    unfold synthesizePlain at h
    split at h
    next => exact absurd h (by simp)
    next =>
      unfold speak toResult at h
      split at h
      next => exact absurd h (by simp)
      next =>
        obtain rfl := Except.ok.inj h
        rfl
  rw [hwav, ← hrate]

/-- **At rest the client has heard the model speak its text in its voice**, where the files and
the model stay as they are and no two calls have met in the model of a worker: for every context
of an open session with ids of its own that has a final frame at a rate that can be served and
was not cancelled, and none of whose syntheses and sends failed, the client has read `done`, and
what it played are the samples a worker of its own would have made of the chunks of its text, in
order, in the voice of its first frame. -/
theorem spoken_at_rest {n : ℕ+} {workers : List (SupertonicWorker S)} {world : World S F}
    (hworkers : ∀ w ∈ workers, Kept cfg (· = world) w) {acts : List (DeployAct S F)}
    (hin : ∀ a ∈ acts, a.Within (· = world))
    (hapart : StepsMeet (Deployment.step ops cfg) Deployment.Apart
      (Deployment.init F n workers) acts) {d : Deployment S F}
    (hrun : run (Deployment.step ops cfg) (Deployment.init F n workers) acts = some d)
    (hrest : d.server.AtRest) {sid : Nat} (hown : d.server.OwnIds sid)
    (hopen : (d.server.sessions sid).closed = false) {c : String}
    (hc : Unharmed c (d.server.sessions sid).trace)
    {pre post : List IncomingText} {m first : IncomingText}
    (htexts : texts (ofContext c (d.server.sessions sid).trace) = pre ++ m :: post)
    (hpre : ∀ x ∈ pre, x.continue_ = true) (hm : m.continue_ = false)
    (hfirst : (pre ++ [m]).head? = some first) (hserve : Servable first.outputFormat.sampleRate)
    (depth : Nat) :
    .done c ∈ framesRead (depth + 1) (sentTexts (d.server.sessions sid).trace) ∧
    Plays ops first.outputFormat.sampleRate (speech cfg world first.voice.id)
      (spokenChunks (pre ++ [m]))
      (collect (depth + 1) c (sentTexts (d.server.sessions sid).trace)) := by
  have hfaithful := run_faithful hworkers hin hapart hrun
  obtain ⟨sacts, hserver⟩ := run_server hrun
  obtain ⟨w, -, halone⟩ := run_alone (flagsOwn_of_ownIds hserver hown) hserver
  have hsource : ∀ chunk r,
      (chunk, .ok r) ∈ syntheses (ofContext c (d.server.sessions sid).trace) →
      r = ⟨speech cfg world first.voice.id chunk, nativeSr⟩ := by
    intro chunk r hr
    obtain ⟨first', hhead, hanswer⟩ := hfaithful.answers hr
    obtain rfl : first' = first := by
      rw [htexts, show pre ++ m :: post = (pre ++ [m]) ++ post by simp, List.head?_append,
        hfirst] at hhead
      exact (Option.some.inj hhead).symm
    exact synthesizePlain_ok (answers_iff_plain.mp hanswer).symm
  have hstop := hc.not_stopped (halone.wf.sessions sid) hopen
  have hdone := halone.done_at_rest hrest hopen hc htexts hpre hm hfirst hserve hsource depth
  exact ⟨hdone, halone.plays hstop htexts hpre hm hfirst hsource hdone⟩

/-- A session that takes no step stays as it is. -/
theorem deployed_idle {d d' : Deployment S F} {acts : List (DeployAct S F)} {sid : Nat}
    (hidle : ∀ act, DeployAct.sess sid act ∉ acts)
    (hrun : run (Deployment.step ops cfg) d acts = some d') :
    d'.server.sessions sid = d.server.sessions sid := by
  induction acts generalizing d with
  | nil =>
    cases hrun
    rfl
  | cons a acts ih =>
    obtain ⟨t, ht, hrest⟩ := Lib.run_cons_some.mp hrun
    rw [ih (fun act hact => hidle act (List.mem_cons_of_mem _ hact)) hrest]
    rcases deploy_cases ht with ⟨b, s, hdoes, hb, rfl⟩ | ⟨_, _, _, _, -, -, -, -, rfl⟩
    · refine step_idle (fun act hact => ?_) hb
      subst hact
      cases hdoes with
      | sess => exact hidle act List.mem_cons_self
    · rfl

/-- Where the run of one utterance ends. -/
theorem deployedRun_ends : ∃ d,
    run (Deployment.step silentOps defaultConfig) (Deployment.init Unit 2 oneVoiceWorkers)
      deployedRun = some d ∧
    (d.server.sessions 0).trace = .textHandled (textOfX "Hi." false 50) :: oneChunkEvents ∧
    (d.server.sessions 0).closed = false ∧ d.server.OwnIds 0 ∧ d.server.AtRest := by
  obtain ⟨d, hrun, htrace⟩ := deployedRun_trace
  have hstaffed := run_staffed (n := 2) (show oneVoiceWorkers.length = 2 by decide +kernel) hrun
  have hlistens := Lib.run_reads (f := fun d => (d.server.sessions 0).recv) (b := .listening) hrun
    (by decide +kernel)
  have hself := Lib.run_reads
    (f := fun d => restOfX { pool := d.server.pool, session := d.server.sessions 0 })
    (b := (false, ["x"], some .finished, [], [])) hrun (by decide +kernel)
  refine ⟨d, hrun, htrace, one_session_rests hstaffed.sound.wf hlistens hself fun k => ?_⟩
  exact deployed_idle (by simp [deployedRun, oneChunkRun]) hrun

end SupertonicServer
