import SupertonicServer.Server.Deployed
import SupertonicServer.Server.Program
import SupertonicServer.Server.Stats

/-!
# A conversation

The whole program, from the frames that come in on the connections to the frames that go out.
The theorem looks at nothing but what the clients sent: if the frames of a context announce an
utterance, and nobody cancels it or uses its id on another connection, then its client hears the
utterance (`conversation`).
-/

namespace SupertonicServer

open Coalescer (Chunk)
open Wire (IncomingText IncomingMessage LoadsResult decode)
open Audio (AudioOps Servable)
open Pool
open Worker
open Lib (StepsMeet run)

variable {S F : Type} {ops : AudioOps F} {cfg : Config} {loads : String → LoadsResult}

/-- The worlds of the calls are among these. -/
def WireAct.Within (Worlds : World S F → Prop) : WireAct S F → Prop
  | .receive _ _ => True
  | .other a => a.Within Worlds

theorem within_deployAct {Worlds : World S F → Prop} {acts : List (WireAct S F)}
    (hin : ∀ a ∈ acts, a.Within Worlds) :
    ∀ b ∈ acts.map (WireAct.deployAct loads), b.Within Worlds := by
  intro b hb
  obtain ⟨a, ha, rfl⟩ := List.mem_map.mp hb
  cases a with
  | receive sid raw =>
    cases hmsg : decode loads raw <;> simp [WireAct.deployAct, hmsg, DeployAct.Within]
  | other a => exact hin _ ha

/-- A thread that goes into the model of its worker finds nobody there. -/
def WireAct.Apart (d : Deployment S F) : WireAct S F → Prop
  | .receive _ _ => True
  | .other a => d.Apart a

/-- So it is in the deployment that the program is. -/
theorem apart_deployAct {d d' : Deployment S F} {acts : List (WireAct S F)}
    (hapart : StepsMeet (Deployment.wireStep ops cfg loads) WireAct.Apart d acts)
    (hrun : run (Deployment.wireStep ops cfg loads) d acts = some d') :
    StepsMeet (Deployment.step ops cfg) Deployment.Apart d
      (acts.map (WireAct.deployAct loads)) := by
  induction acts generalizing d with
  | nil => exact Lib.stepsMeet_nil d
  | cons a acts ih =>
    obtain ⟨t, ht, hrest⟩ := Lib.run_cons_some.mp hrun
    refine .cons (wireStep_step ht) ?_ (ih (hapart.tail ht) hrest)
    have hfirst := hapart.head ht
    cases a with
    | receive sid raw =>
      cases hmsg : decode loads raw <;> simp [WireAct.deployAct, hmsg, Deployment.Apart]
    | other a => exact hfirst

/-- Where the worker answers as in a fixed world, a context that is not stopped has been
answered for chunks of its utterance only. -/
theorem answered_chunks {n : ℕ+} {workers : List (SupertonicWorker S)} {world : World S F}
    (hworkers : ∀ w ∈ workers, Kept cfg (· = world) w) {acts : List (DeployAct S F)}
    (hin : ∀ a ∈ acts, a.Within (· = world))
    (hapart : StepsMeet (Deployment.step ops cfg) Deployment.Apart
      (Deployment.init F n workers) acts) {d : Deployment S F}
    (hrun : run (Deployment.step ops cfg) (Deployment.init F n workers) acts = some d)
    {sid : Nat} (hown : d.server.OwnIds sid) {c : String}
    (hstop : ¬ Stopped c (d.server.sessions sid).trace)
    {pre post : List IncomingText} {m first : IncomingText}
    (htexts : texts (ofContext c (d.server.sessions sid).trace) = pre ++ m :: post)
    (hpre : ∀ x ∈ pre, x.continue_ = true) (hm : m.continue_ = false)
    (hfirst : (pre ++ [m]).head? = some first) {chunk : Chunk} {outcome : Outcome F}
    (hmem : .synthesized c chunk outcome ∈ (d.server.sessions sid).trace) :
    chunk ∈ spokenChunks (pre ++ [m]) ∧
      outcome = synthesizePlain cfg world chunk first.voice.id := by
  have hfaithful := run_faithful hworkers hin hapart hrun
  obtain ⟨sacts, hserver⟩ := run_server hrun
  obtain ⟨w, -, halone⟩ := run_alone (flagsOwn_of_ownIds hserver hown) hserver
  have hsyn : (chunk, outcome) ∈ syntheses (ofContext c (d.server.sessions sid).trace) :=
    List.mem_filterMap.mpr ⟨_, mem_ofContext.mpr ⟨hmem, rfl⟩, rfl⟩
  constructor
  · have hknown := (halone.wf.sessions sid).trace _ hmem c rfl
    obtain ⟨ctx, hctx⟩ := Option.ne_none_iff_exists'.mp hknown
    obtain ⟨-, v, hlives, -, htrace, hlive⟩ := halone.lives hctx hstop
    rw [← htrace] at htexts hsyn
    exact (hlives.voiced_prefix hlive htexts hpre hm).subset (List.mem_map_of_mem hsyn)
  · obtain ⟨first', hhead, hanswer⟩ := hfaithful.answers hsyn
    obtain rfl : first' = first := by
      rw [htexts, show pre ++ m :: post = (pre ++ [m]) ++ post by simp, List.head?_append,
        hfirst] at hhead
      exact (Option.some.inj hhead).symm
    exact answers_iff_plain.mp hanswer

/-- **An utterance, from wire to wire.** The program runs in a world that stays as it is, in any
order of steps and with any other clients, and comes to rest; no two calls meet in the model of
a worker. Take a connection that is still open, whose contexts no other connection was sent texts
for, and a context on it that was sent the frames `pre ++ m :: post`, of which `m` is the first
with `continue=False`. If it was not cancelled, asked for a rate that can be served, no send to
it failed and the model can speak its chunks, then the client has read `done`, and what it played
are the samples the model makes of the chunks of `pre ++ [m]`, in order, in the voice of the
first frame. -/
theorem conversation {n : ℕ+} {workers : List (SupertonicWorker S)} {world : World S F}
    (hworkers : ∀ w ∈ workers, Kept cfg (· = world) w) {acts : List (WireAct S F)}
    (hin : ∀ a ∈ acts, a.Within (· = world))
    (hapart : StepsMeet (Deployment.wireStep ops cfg loads) WireAct.Apart
      (Deployment.init F n workers) acts) {d : Deployment S F}
    (hrun : run (Deployment.wireStep ops cfg loads) (Deployment.init F n workers) acts = some d)
    (hrest : d.server.AtRest) {sid : Nat} (hown : OwnContexts loads sid acts)
    (hopen : (d.server.sessions sid).closed = false) {c : String}
    (hcancel : c ∉ cancelsIn (messagesOn loads sid acts))
    (hsent : ∀ f, f.contextId? = some c → .sendFailed f ∉ (d.server.sessions sid).trace)
    {pre post : List IncomingText} {m first : IncomingText}
    (htexts : (textsIn (messagesOn loads sid acts)).filter (fun x => x.contextId = c) =
      pre ++ m :: post)
    (hpre : ∀ x ∈ pre, x.continue_ = true) (hm : m.continue_ = false)
    (hfirst : (pre ++ [m]).head? = some first) (hserve : Servable first.outputFormat.sampleRate)
    (hmodel : ∀ chunk ∈ spokenChunks (pre ++ [m]),
      ∃ r, synthesizePlain cfg world chunk first.voice.id = .ok r) (depth : Nat) :
    .done c ∈ framesRead (depth + 1) (sentTexts (d.server.sessions sid).trace) ∧
    Plays ops first.outputFormat.sampleRate (speech cfg world first.voice.id)
      (spokenChunks (pre ++ [m]))
      (collect (depth + 1) c (sentTexts (d.server.sessions sid).trace)) := by
  have hdeploy := run_wire hrun
  have hids := hown.ownIds hrun
  have hdapart := apart_deployAct hapart hrun
  have hwf := (run_faithful hworkers (within_deployAct hin) hdapart hdeploy).sound.wf.sessions sid
  have hhears := (run_hears (init_serverWf n) hrun sid).1
  -- what came in on the wire is what the session has handled
  have htexts' : texts (ofContext c (d.server.sessions sid).trace) = pre ++ m :: post := by
    rw [texts_ofContext, hhears.read hopen]
    exact htexts
  have huncancelled : .cancelHandled c ∉ (d.server.sessions sid).trace := by
    intro hc
    rcases hhears.cancelled c hc with hold | hnew
    · exact absurd hold List.not_mem_nil
    · exact hcancel hnew
  have hstop : ¬ Stopped c (d.server.sessions sid).trace := by
    intro hstop
    rcases hstop with hc | hc
    · exact huncancelled hc
    · rw [hwf.closes c hc] at hopen
      exact absurd hopen (by simp)
  have hc : Unharmed c (d.server.sessions sid).trace := by
    refine ⟨huncancelled, fun chunk message hfailed => ?_, hsent⟩
    obtain ⟨hchunk, houtcome⟩ := answered_chunks hworkers (within_deployAct hin) hdapart hdeploy
      hids hstop htexts' hpre hm hfirst hfailed
    obtain ⟨r, hr⟩ := hmodel chunk hchunk
    rw [hr] at houtcome
    exact absurd houtcome (by simp)
  exact spoken_at_rest hworkers (within_deployAct hin) hdapart hdeploy hrest hids hopen hc htexts'
    hpre hm hfirst hserve depth

/-! ## One utterance -/

/-- Without frames the program is the deployment. -/
theorem run_other {d : Deployment S F} {acts : List (DeployAct S F)}
    (hacts : ∀ a ∈ acts, a.Handles = false) :
    run (Deployment.wireStep ops cfg loads) d (acts.map .other) =
      run (Deployment.step ops cfg) d acts := by
  induction acts generalizing d with
  | nil => rfl
  | cons a acts ih =>
    obtain ⟨ha, hacts⟩ := List.forall_mem_cons.mp hacts
    have hstep : d.wireStep ops cfg loads (.other a) = d.step ops cfg a := by
      simp [Deployment.wireStep, ha]
    rw [List.map_cons, Lib.run_cons, Lib.run_cons, hstep]
    cases d.step ops cfg a with
    | none => rfl
    | some d' => exact ih hacts

/-- A text that decodes is handled at once. -/
theorem wireStep_receive {d : Deployment S F} {sid : Nat} {raw : String} {msg : IncomingMessage}
    (hrecv : (d.server.sessions sid).recv = .listening) (hmsg : decode loads raw = .ok msg) :
    d.wireStep ops cfg loads (.receive sid raw) = d.step ops cfg (.sess sid (.handle msg)) := by
  rw [Deployment.wireStep, receive_message hrecv hmsg]
  rfl

theorem deployAct_receive {sid : Nat} {raw : String} {msg : IncomingMessage}
    (hmsg : decode loads raw = .ok msg) :
    WireAct.deployAct loads (.receive sid raw) =
      (.sess sid (.handle msg) : DeployAct S F) := by
  rw [WireAct.deployAct, hmsg]

theorem messagesOn_other (sid : Nat) (acts : List (DeployAct S F)) :
    messagesOn loads sid (acts.map .other) = [] := by
  simp [messagesOn]

/-- What the client of session 0 writes. -/
def hi : IncomingText := textOfX "Hi." false 50

theorem decode_hi : decode (Wire.readerLoads 3) hi.text = .ok (.text hi) := by
  refine Wire.decode_text (Wire.readerLoads_reads 3)
    ⟨by decide, by decide, by simp [hi, textOfX], ?_⟩
  refine .obj (by simp [hi, textOfX, IncomingText.print, IncomingText.fields,
    Wire.optionalMember]) ?_
  simp only [hi, textOfX, IncomingText.print, IncomingText.fields, Wire.optionalMember,
    Option.map_none, List.nil_append, List.append_nil, List.cons_append, List.forall_mem_cons,
    List.not_mem_nil, false_imp_iff, implies_true, and_true]
  have hshort : Wire.ShortInt 50 := by
    unfold Wire.ShortInt
    decide
  refine ⟨.str _ _, .bool _ _, .str _ _, .obj (by simp) ?_, .obj (by simp) ?_, .bool _ _,
    .bool _ _⟩
  all_goals
    simp only [List.forall_mem_cons, List.not_mem_nil, false_imp_iff, implies_true, and_true]
  · exact ⟨.str _ _, .str _ _⟩
  · exact ⟨.str _ _, .str _ _, .int _ hshort⟩

theorem deployedRun_cons :
    deployedRun = .sess 0 (.handle (.text hi)) :: deployedRun.tail := rfl

/-- The run of one utterance, with the frame as it comes in. -/
def conversationRun : List (WireAct Unit Unit) :=
  .receive 0 hi.text :: deployedRun.tail.map .other

theorem messagesOn_conversationRun (sid : Nat) :
    messagesOn (Wire.readerLoads 3) sid conversationRun = if 0 = sid then [.text hi] else [] := by
  rw [conversationRun, messagesOn_cons, messagesOn_other]
  simp [messagesOn, decode_hi, Except.toOption]

theorem conversationRun_run :
    run (Deployment.wireStep silentOps defaultConfig (Wire.readerLoads 3))
      (Deployment.init Unit 2 oneVoiceWorkers) conversationRun =
    run (Deployment.step silentOps defaultConfig) (Deployment.init Unit 2 oneVoiceWorkers)
      deployedRun := by
  have hfirst : (Deployment.init Unit 2 oneVoiceWorkers).wireStep silentOps defaultConfig
      (Wire.readerLoads 3) (.receive 0 hi.text) =
      (Deployment.init Unit 2 oneVoiceWorkers).step silentOps defaultConfig
        (.sess 0 (.handle (.text hi))) := wireStep_receive rfl decode_hi
  have hothers : ∀ a ∈ deployedRun.tail, a.Handles = false := by decide +kernel
  rw [conversationRun, Lib.run_cons, hfirst]
  conv_rhs => rw [deployedRun_cons, Lib.run_cons]
  exact Option.bind_congr fun d _ => run_other hothers

theorem conversationRun_deployed :
    conversationRun.map (WireAct.deployAct (Wire.readerLoads 3)) = deployedRun := by
  have hrest : (deployedRun.tail.map WireAct.other).map
      (WireAct.deployAct (Wire.readerLoads 3)) = deployedRun.tail := by
    rw [List.map_map]
    exact List.map_id _
  rw [conversationRun, List.map_cons, deployAct_receive decode_hi, hrest]
  exact deployedRun_cons.symm

theorem conversationRun_apart :
    StepsMeet (Deployment.wireStep silentOps defaultConfig (Wire.readerLoads 3)) WireAct.Apart
      (Deployment.init Unit 2 oneVoiceWorkers) conversationRun := by
  intro pre a post d d' hsplit hpre hstep
  have hdeployed := conversationRun_deployed
  rw [hsplit, List.map_append, List.map_cons] at hdeployed
  have hapart := deployedRun_apart _ _ _ d d' hdeployed.symm (run_wire hpre) (wireStep_step hstep)
  cases a with
  | receive => trivial
  | other b => exact hapart

/-- The client of session 0 writes `Hi.` and hears it. -/
theorem conversation_one_voice : ∃ d,
    run (Deployment.wireStep silentOps defaultConfig (Wire.readerLoads 3))
      (Deployment.init Unit 2 oneVoiceWorkers) conversationRun = some d ∧
    .done "x" ∈ framesRead 1 (sentTexts (d.server.sessions 0).trace) ∧
    Plays silentOps 50 (speech defaultConfig oneVoice "F1") (spokenChunks [hi])
      (collect 1 "x" (sentTexts (d.server.sessions 0).trace)) := by
  obtain ⟨d, hdeploy, htrace, hopen, -, hrest⟩ := deployedRun_ends
  have hrun := conversationRun_run.trans hdeploy
  have hin : ∀ a ∈ conversationRun, a.Within (· = oneVoice) := by
    simp [conversationRun, deployedRun, oneChunkRun, WireAct.Within, DeployAct.Within]
  have hown : OwnContexts (Wire.readerLoads 3) 0 conversationRun := by
    intro m hm sid' hne m' hm'
    rw [messagesOn_conversationRun, if_neg (Ne.symm hne)] at hm'
    exact absurd hm' List.not_mem_nil
  have hcancel : "x" ∉ cancelsIn (messagesOn (Wire.readerLoads 3) 0 conversationRun) := by
    rw [messagesOn_conversationRun]
    simp [cancelsIn]
  have htexts : (textsIn (messagesOn (Wire.readerLoads 3) 0 conversationRun)).filter
      (fun x => x.contextId = "x") = [] ++ hi :: [] := by
    rw [messagesOn_conversationRun]
    rfl
  have hmodel : ∀ chunk ∈ spokenChunks ([] ++ [hi]),
      ∃ r, synthesizePlain defaultConfig oneVoice chunk hi.voice.id = .ok r :=
    fun chunk _ => ⟨⟨[()], Audio.nativeSr⟩, by with_unfolding_all rfl⟩
  refine ⟨d, hrun, conversation oneVoiceWorkers_kept hin conversationRun_apart hrun hrest hown
    hopen hcancel ?_ htexts (by simp) rfl rfl (by decide +kernel) hmodel 0⟩
  rw [htrace]
  simp [oneChunkEvents]

end SupertonicServer
