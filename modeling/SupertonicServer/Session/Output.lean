import SupertonicServer.Session.Heard
import SupertonicServer.Session.Terminal

/-!
# What a context sends, end to end

A session is a receive loop, one emit task for each context, queues, and a thread pool. When
nothing is in flight any more, a context that was neither cancelled nor hit by a failure has
sent what one sequential program would have sent (`contextOutput`): push the transcripts up
to the first final frame, flush, and for each chunk in order synthesize, run `pipeline`, send
the frames; then `done`, or one error frame at the first chunk `pipeline` raises on.
-/

namespace SupertonicServer

open Coalescer (Chunk)
open Wire (Bytes IncomingText ServerFrame encodeChunk encodeDone encodeError)
open Audio (AudioOps Servable SynthResult pipeline nativeSr)
open Pool
open Lib (run StepsMeet)

variable {F : Type}

/-- The frames of one context, as a sequential program. `synth` is the worker under the voice
of the context. -/
def contextOutput (ops : AudioOps F) (c : String) (sr : Int) (synth : Chunk → List F) :
    List Chunk → List ServerFrame
  | [] => [encodeDone c]
  | chunk :: rest =>
    match pipeline ops (synth chunk) nativeSr sr with
    | .ok frames => frames.map (encodeChunk c) ++ contextOutput ops c sr synth rest
    | .error message => [encodeError (some c) s!"server: {message}"]

/-- The chunks that program hands to the worker: none behind one `pipeline` raises on. -/
def contextSyntheses (ops : AudioOps F) (sr : Int) (synth : Chunk → List F) :
    List Chunk → List Chunk
  | [] => []
  | chunk :: rest =>
    match pipeline ops (synth chunk) nativeSr sr with
    | .ok _ => chunk :: contextSyntheses ops sr synth rest
    | .error _ => [chunk]

/-- Where `pipeline` raises on no chunk, all are synthesized, all their frames are sent, and
`done` follows. -/
theorem context_served {ops : AudioOps F} {c : String} {sr : Int} {synth : Chunk → List F}
    {frames : Chunk → List Bytes}
    (hok : ∀ chunk, pipeline ops (synth chunk) nativeSr sr = .ok (frames chunk))
    (chunks : List Chunk) :
    contextOutput ops c sr synth chunks =
        chunks.flatMap (fun chunk => (frames chunk).map (encodeChunk c)) ++ [encodeDone c] ∧
      contextSyntheses ops sr synth chunks = chunks := by
  induction chunks with
  | nil => exact ⟨rfl, rfl⟩
  | cons chunk rest ih =>
    simp only [contextOutput, contextSyntheses, hok, List.flatMap_cons, List.append_assoc, ih,
      and_self]

/-- How the history of a context ends that nothing excuses: the first EOF was taken after
everything ahead of it was shipped, or `pipeline` raised on one of those chunks. -/
inductive Rested (ops : AudioOps F) (c : String) (sr : Int) (tr : List (Event F)) : Prop where
  | answered (R : List (Shipment ops sr))
      (hahead : aheadOfEof (puts tr) = R.map Shipment.chunk)
      (hsyntheses : syntheses tr = R.map Shipment.record)
      (hdeliveries : deliveries tr = R.flatMap (Shipment.sent c) ++ [encodeDone c])
  | broken (R : List (Shipment ops sr)) (chunk : Chunk) (result : SynthResult F)
      (rest : List Chunk) (message : String)
      (hpipe : pipeline ops result.wavF32 result.sampleRate sr = .error message)
      (hahead : aheadOfEof (puts tr) = R.map Shipment.chunk ++ chunk :: rest)
      (hsyntheses : syntheses tr = R.map Shipment.record ++ [(chunk, .ok result)])
      (hdeliveries : deliveries tr =
        R.flatMap (Shipment.sent c) ++ [encodeError (some c) s!"server: {message}"])

/-- No emit task can step and no synthesis is in flight. -/
structure Solo.Quiescent (ops : AudioOps F) (sid : Nat) (w : Solo F) : Prop where
  emit : ∀ c, w.session.step ops w.pool sid (.emit c) = none
  sent : ∀ c exc, w.session.step ops w.pool sid (.sent c exc) = none
  queued : w.pool.queued = []
  running : w.pool.running = []

/-- The context was never cancelled, and none of its syntheses and sends failed. -/
structure Unharmed (c : String) (tr : List (Event F)) : Prop where
  uncancelled : .cancelHandled c ∉ tr
  synthesized : ∀ chunk message, .synthesized c chunk (.error message) ∉ tr
  sent : ∀ f, f.contextId? = some c → .sendFailed f ∉ tr

/-- The worker is a function of text and voice, at the native rate, when it answers at all. -/
def WorkerIs (synth : Chunk → String → List F) (chunk : Chunk) (voice : String)
    (o : Outcome F) : Prop :=
  ∀ r, o = .ok r → r = ⟨synth chunk voice, nativeSr⟩

section

variable {ops : AudioOps F} {Res : Chunk → String → Outcome F → Prop} {sid : Nat} {w : Solo F}
  {c : String} {sr : Int}

/-- In an open session an unharmed context has nothing to excuse it. -/
theorem Unharmed.not_excused {s : Session F} (h : Unharmed c s.trace) (hwf : s.Wf)
    (hopen : s.closed = false) : ¬ Excused (ofContext c s.trace) := by
  intro hexcused
  obtain ⟨e, he, hex⟩ := hexcused
  obtain ⟨hmem, hid⟩ := mem_ofContext.mp he
  cases e with
  | sendFailed f => exact h.sent f hid hmem
  | cancelHandled d =>
    obtain rfl : d = c := Option.some.inj hid
    exact h.uncancelled hmem
  | closing d => exact absurd (hwf.closes d hmem) (by simp [hopen])
  | synthesized d chunk o =>
    obtain rfl : d = c := Option.some.inj hid
    cases o with
    | error message => exact h.synthesized chunk message hmem
    | ok r => exact hex
  | textHandled | put | submitted | sendStarted | delivered => exact hex

/-- An emit task with something in its queue can go on. -/
theorem resume_of_queue {p : WorkerPool F} {ctx : Context} (hready : p.ready = true)
    (hemit : ctx.emit = .atGet) (hqueue : ctx.queue ≠ []) : ctx.resume ops p sid ≠ none := by
  intro hstuck
  cases hq : ctx.queue with
  | nil => exact hqueue hq
  | cons item q =>
    cases item with
    | none =>
      simp only [Context.resume, hemit, hq] at hstuck
      split at hstuck <;> exact absurd hstuck (by simp)
    | some chunk =>
      simp only [Context.resume, hemit, hq, synthesizeStart_of_flag hready] at hstuck
      by_cases hflag : p.isCancelled ctx.contextId = true
      · rw [if_pos hflag] at hstuck
        exact absurd hstuck (by simp)
      · rw [if_neg hflag, if_neg hflag] at hstuck
        exact absurd hstuck (by simp)

/-- So can one whose result is there. -/
theorem resume_of_result {p : WorkerPool F} {ctx : Context} {chunk : Chunk} {o : Outcome F}
    (hemit : ctx.emit = .inSynth chunk) (ho : p.result? ⟨sid, ctx.contextId⟩ = some o) :
    ctx.resume ops p sid ≠ none := by
  intro hstuck
  unfold Context.resume at hstuck
  rw [hemit] at hstuck
  simp only [ho] at hstuck
  split at hstuck <;> try split at hstuck
  all_goals exact absurd hstuck (by simp)

/-- At rest an emit task waits at an empty queue or has finished. -/
theorem Solo.Quiescent.rest (hq : w.Quiescent ops sid) (hinv : SoloInv ops Res sid w)
    {ctx : Context} (hctx : w.session.objs c = some ctx) :
    (ctx.emit = .atGet ∧ ctx.queue = []) ∨ ctx.emit = .finished := by
  have hresume : ctx.resume ops w.pool sid = none := by
    have hstep := hq.emit c
    simp only [Session.step, hctx] at hstep
    cases h : ctx.resume ops w.pool sid with
    | none => rfl
    | some eff => exact absurd hstep (by simp [h])
  have hsent : ctx.sent w.pool none = none := by
    have hstep := hq.sent c none
    simp only [Session.step, hctx] at hstep
    cases h : ctx.sent w.pool none with
    | none => rfl
    | some eff => exact absurd hstep (by simp [h])
  cases hemit : ctx.emit with
  | created => simp [Context.resume, hemit] at hresume
  | atGet =>
    refine Or.inl ⟨rfl, ?_⟩
    by_contra hqueue
    exact resume_of_queue hinv.ready hemit hqueue hresume
  | inSynth chunk =>
    -- its job has left the queue and the threads
    exfalso
    have hjobs := hinv.jobs c ctx hctx
    simp only [TaskJobs, hemit] at hjobs
    obtain ⟨j, hj, -⟩ := hjobs
    obtain ⟨o, ho⟩ := result?_of_idle hq.queued hq.running
      (show j ∈ w.pool.jobsOf ⟨sid, c⟩ by simp [hj])
    rw [← hinv.wf.ids c ctx hctx] at ho
    exact resume_of_result hemit ho hresume
  | inSend pcm rest => simp [Context.sent, hemit] at hsent
  | inDone => simp [Context.sent, hemit] at hsent
  | inError message => simp [Context.sent, hemit] at hsent
  | finished => exact Or.inr rfl

/-- The sequential program, run over results that were shipped. -/
theorem context_shipments {synth : Chunk → List F} {R : List (Shipment ops sr)}
    (hR : ∀ s ∈ R, s.result = ⟨synth s.chunk, nativeSr⟩) (rest : List Chunk) :
    contextOutput ops c sr synth (R.map Shipment.chunk ++ rest) =
        R.flatMap (Shipment.sent c) ++ contextOutput ops c sr synth rest ∧
      contextSyntheses ops sr synth (R.map Shipment.chunk ++ rest) =
        R.map Shipment.chunk ++ contextSyntheses ops sr synth rest := by
  induction R with
  | nil => exact ⟨rfl, rfl⟩
  | cons s R ih =>
    obtain ⟨hout, hsyn⟩ := ih fun t ht => hR t (List.mem_cons_of_mem _ ht)
    have hs := s.ok
    rw [hR s List.mem_cons_self] at hs
    have hpipe : pipeline ops (synth s.chunk) nativeSr sr = .ok s.frames := hs
    simp only [List.map_cons, List.cons_append, contextOutput, contextSyntheses, hpipe]
    refine ⟨?_, congrArg (s.chunk :: ·) hsyn⟩
    rw [hout, List.flatMap_cons, List.append_assoc]
    rfl

/-- A context at rest that nothing excuses has taken its first EOF. -/
theorem Story.rested {v : View F} (h : Story ops c sr v) (hno : ¬ Excused v.trace)
    (hflagged : v.flag = true → Excused v.trace)
    (hrest : (v.ctx.emit = .atGet ∧ v.ctx.queue = []) ∨ v.ctx.emit = .finished)
    (heof : none ∈ puts v.trace) : Rested ops c sr v.trace := by
  cases h with
  | looping hemit hchunks hledger =>
    -- the queue would be empty although EOF was put into it
    exfalso
    have hflag : v.flag = false := Bool.eq_false_iff.mpr fun hf => hno (hflagged hf)
    obtain ⟨R, hl⟩ := hledger hflag
    rcases hrest with ⟨hget, hqueue⟩ | hfin
    · rw [hl.queued, Context.pending, hget, hqueue] at heof
      simp at heof
    · rw [hfin] at hemit
      exact hemit trivial
  | sayingDone hemit | sayingError _ hemit =>
    rw [hemit] at hrest
    simp at hrest
  | answered hemit R q hputs hsyn hdel =>
    refine .answered R ?_ hsyn hdel
    rw [hputs, aheadOfEof_shipments]
    exact List.append_nil _
  | gaveUp hemit chunks last hdel hchunks hlast hwhy =>
    rcases hwhy with hex | ⟨message, R, chunk, result, q, hpipe, hputs, hsyn, hdel⟩
    · exact absurd hex hno
    · refine .broken R chunk result (aheadOfEof q) message hpipe ?_ hsyn hdel
      rw [hputs, aheadOfEof_shipments]
      rfl

/-- Such a history is the one of the sequential program on the chunks ahead of the EOF. -/
theorem Rested.output {tr : List (Event F)} (h : Rested ops c sr tr) {synth : Chunk → List F}
    (hsource : ∀ chunk r, (chunk, .ok r) ∈ syntheses tr → r = ⟨synth chunk, nativeSr⟩) :
    deliveries tr = contextOutput ops c sr synth (aheadOfEof (puts tr)) ∧
      (syntheses tr).map Prod.fst = contextSyntheses ops sr synth (aheadOfEof (puts tr)) := by
  cases h with
  | answered R hahead hsyn hdel =>
    have hR : ∀ s ∈ R, s.result = ⟨synth s.chunk, nativeSr⟩ := by
      intro s hs
      apply hsource s.chunk s.result
      rw [hsyn]
      exact List.mem_map_of_mem (f := Shipment.record) hs
    obtain ⟨hout, hall⟩ := context_shipments (c := c) hR []
    rw [List.append_nil] at hout hall
    rw [hdel, hsyn, hahead, hout, hall, List.map_map]
    exact ⟨rfl, (List.append_nil _).symm⟩
  | broken R chunk result rest message hpipe hahead hsyn hdel =>
    -- the program stops at the chunk `pipeline` raises on, as the emit task did
    have hR : ∀ s ∈ R, s.result = ⟨synth s.chunk, nativeSr⟩ := by
      intro s hs
      apply hsource s.chunk s.result
      rw [hsyn]
      exact List.mem_append_left _ (List.mem_map_of_mem (f := Shipment.record) hs)
    have hresult : result = ⟨synth chunk, nativeSr⟩ :=
      hsource chunk result (by rw [hsyn]; simp)
    rw [hresult] at hpipe
    have hraise : pipeline ops (synth chunk) nativeSr sr = .error message := hpipe
    obtain ⟨hout, hall⟩ := context_shipments (c := c) hR (chunk :: rest)
    rw [hdel, hsyn, hahead, hout, hall, List.map_append, List.map_map, contextOutput,
      contextSyntheses, hraise]
    exact ⟨rfl, rfl⟩

/-- If `pipeline` raises on none, `done` was the answer. -/
theorem Rested.all {tr : List (Event F)} (h : Rested ops c sr tr)
    (hpipe : ∀ chunk r, (chunk, .ok r) ∈ syntheses tr →
      ∃ frames, pipeline ops r.wavF32 r.sampleRate sr = .ok frames) :
    ∃ R : List (Shipment ops sr), aheadOfEof (puts tr) = R.map Shipment.chunk ∧
      syntheses tr = R.map Shipment.record ∧
      deliveries tr = R.flatMap (Shipment.sent c) ++ [encodeDone c] := by
  cases h with
  | answered R hahead hsyn hdel => exact ⟨R, hahead, hsyn, hdel⟩
  | broken R chunk result rest message hraise hahead hsyn hdel =>
    obtain ⟨frames, hok⟩ := hpipe chunk result (by rw [hsyn]; simp)
    rw [hraise] at hok
    exact absurd hok (by simp)

/-- In an open session at rest an unharmed context that got a final frame is at its end, and
ahead of its first EOF the queue held the chunks of the frames up to that one. -/
theorem rested_of_final (hinv : SoloInv ops Res sid w) (hopen : w.session.closed = false)
    (hrest : w.Quiescent ops sid) (hc : Unharmed c w.session.trace)
    {pre post : List IncomingText} {m : IncomingText}
    (htexts : texts (ofContext c w.session.trace) = pre ++ m :: post)
    (hpre : ∀ x ∈ pre, x.continue_ = true) (hm : m.continue_ = false) :
    ∃ ctx, w.session.objs c = some ctx ∧
      Rested ops c ctx.outputSr (ofContext c w.session.trace) ∧
      aheadOfEof (puts (ofContext c w.session.trace)) = spokenChunks (pre ++ [m]) := by
  have hmem : m ∈ texts (ofContext c w.session.trace) := by rw [htexts]; simp
  obtain ⟨e, he, -⟩ := List.mem_filterMap.mp hmem
  obtain ⟨hetrace, hec⟩ := mem_ofContext.mp he
  obtain ⟨ctx, hctx⟩ := Option.ne_none_iff_exists'.mp (hinv.wf.trace e hetrace c hec)
  obtain rfl := hinv.wf.ids c ctx hctx
  have hlives := hinv.lives _ ctx hctx
  have hno : ¬ Excused (w.view ctx.contextId ctx).trace := hc.not_excused hinv.wf hopen
  -- nobody drained the queue, so it was filled by the text frames and nothing else
  obtain ⟨q, hq⟩ := textRun_first_final post hpre hm
  have hputs : puts (ofContext ctx.contextId w.session.trace) =
      (spokenChunks (pre ++ [m])).map some ++ none :: q := by
    rw [← hq, ← htexts]
    exact hlives.heard.queued fun hstop => hno hstop.excused
  refine ⟨ctx, hctx, ?_, ?_⟩
  · refine hlives.told.story.rested hno hlives.told.flagged (hrest.rest hinv hctx) ?_
    show none ∈ puts (ofContext ctx.contextId w.session.trace)
    rw [hputs]
    simp
  · rw [hputs, aheadOfEof_append]
    exact List.append_nil _

end

/-- **The output of a context**: in every run of a session on its own pool, under every
interleaving with other contexts, their cancels and their failures. Let `pre ++ [m]` be the
text frames of `c` up to the first with `continue=False`. At rest, before `close`, an
unharmed `c` has sent exactly the frames of the sequential program on the chunks of those
frames, under the voice and the rate of its first frame, and the worker has been given the
chunks that program gives it. At a rate that can be served these are all chunks, so all the
text, and `done` stands behind the frames of all of them. -/
theorem context_output {ops : AudioOps F} {sid : Nat} {n : ℕ+} {acts : List (SoloAct F)}
    {w : Solo F} {synth : Chunk → String → List F}
    (hworker : StepsMeet (Solo.step ops sid) (WorkerMeets (WorkerIs synth)) (Solo.init F n) acts)
    (hrun : run (Solo.step ops sid) (Solo.init F n) acts = some w)
    (hopen : w.session.closed = false) (hrest : w.Quiescent ops sid) {c : String}
    (hc : Unharmed c w.session.trace) {pre post : List IncomingText} {m first : IncomingText}
    (htexts : texts (ofContext c w.session.trace) = pre ++ m :: post)
    (hpre : ∀ x ∈ pre, x.continue_ = true) (hm : m.continue_ = false)
    (hfirst : (pre ++ [m]).head? = some first) :
    deliveries (ofContext c w.session.trace) =
      contextOutput ops c first.outputFormat.sampleRate (fun chunk => synth chunk first.voice.id)
        (spokenChunks (pre ++ [m])) ∧
    (syntheses (ofContext c w.session.trace)).map Prod.fst =
      contextSyntheses ops first.outputFormat.sampleRate
        (fun chunk => synth chunk first.voice.id) (spokenChunks (pre ++ [m])) ∧
    (Servable first.outputFormat.sampleRate →
      (∃ frames : Chunk → List Bytes,
        (∀ chunk, pipeline ops (synth chunk first.voice.id) nativeSr
          first.outputFormat.sampleRate = .ok (frames chunk)) ∧
        deliveries (ofContext c w.session.trace) =
          (spokenChunks (pre ++ [m])).flatMap (fun chunk => (frames chunk).map (encodeChunk c)) ++
            [encodeDone c]) ∧
      ((syntheses (ofContext c w.session.trace)).map Prod.fst).flatten =
        transcripts (pre ++ [m])) := by
  have hinv := run_soloInv hworker hrun
  obtain ⟨ctx, hctx, hrested, hahead⟩ := rested_of_final hinv hopen hrest hc htexts hpre hm
  have hlives := hinv.lives _ ctx hctx
  -- the voice and the rate are those of the first frame
  obtain ⟨first', hhead, hvoice, hrate⟩ := hlives.heard.first
  obtain rfl : first' = first := by
    have hhead' : (texts (ofContext c w.session.trace)).head? = some first' := hhead
    rw [htexts, show pre ++ m :: post = (pre ++ [m]) ++ post by simp, List.head?_append,
      hfirst] at hhead'
    exact (Option.some.inj hhead').symm
  have hsource : ∀ chunk r, (chunk, .ok r) ∈ syntheses (ofContext c w.session.trace) →
      r = ⟨synth chunk first'.voice.id, nativeSr⟩ := by
    intro chunk r hmem
    have hres := hlives.syntheses _ hmem
    rw [show (w.view c ctx).ctx.voiceId = first'.voice.id from hvoice] at hres
    exact hres r rfl
  have hsr : ctx.outputSr = first'.outputFormat.sampleRate := hrate
  obtain ⟨hout, hsyn⟩ := hrested.output hsource
  rw [hahead, hsr] at hout hsyn
  refine ⟨hout, hsyn, fun hserve => ?_⟩
  -- at a rate that can be served `pipeline` raises on nothing
  have hok : ∀ chunk, ∃ frames, pipeline ops (synth chunk first'.voice.id) nativeSr
      first'.outputFormat.sampleRate = .ok frames :=
    fun chunk => (Audio.pipeline_ok_iff ops _ (by decide)).mpr hserve
  choose frames hframes using hok
  obtain ⟨hserved, hall⟩ := context_served (c := c) hframes (spokenChunks (pre ++ [m]))
  refine ⟨⟨frames, hframes, hout.trans hserved⟩, ?_⟩
  rw [hsyn, hall, spokenChunks_flatten]

/-! ## Two runs -/

/-- A session whose emit tasks have all finished is at rest. -/
theorem quiescent_of_finished {ops : AudioOps F} {Res : Chunk → String → Outcome F → Prop}
    {sid : Nat} {w : Solo F} (hinv : SoloInv ops Res sid w) (hopen : w.session.closed = false)
    (hfinished : ∀ c ∈ w.session.contexts, ∀ ctx, w.session.objs c = some ctx →
      ctx.emit = .finished)
    (hqueued : w.pool.queued = []) (hrunning : w.pool.running = []) : w.Quiescent ops sid := by
  have hstuck : ∀ c ctx, w.session.objs c = some ctx → ctx.emit = .finished := fun c ctx hctx =>
    hfinished c (hinv.wf.complete hopen c (by rw [hctx]; simp)) ctx hctx
  refine ⟨fun c => ?_, fun c exc => ?_, hqueued, hrunning⟩
  · cases hctx : w.session.objs c with
    | none => simp [Session.step, hctx]
    | some ctx => simp [Session.step, hctx, Context.resume, hstuck c ctx hctx]
  · cases hctx : w.session.objs c with
    | none => simp [Session.step, hctx]
    | some ctx => simp [Session.step, hctx, Context.sent, hstuck c ctx hctx]

/-- The promise of the worker is one about the outcomes in the run. -/
theorem workerMeets_of_outcomes {ops : AudioOps F} {Res : Chunk → String → Outcome F → Prop}
    {sid : Nat} {w : Solo F} {acts : List (SoloAct F)}
    (h : ∀ owner o, .exec (.finish owner o) ∈ acts → ∀ chunk voice, Res chunk voice o) :
    StepsMeet (Solo.step ops sid) (WorkerMeets Res) w acts := by
  intro pre a post s s' hsplit hpre hstep
  unfold WorkerMeets
  split
  next owner o =>
    have hmem : SoloAct.exec (.finish owner o) ∈ acts := by rw [hsplit]; simp
    exact fun j _ _ => h owner o hmem j.text j.voiceName
  next => trivial

/-- The session with the one context `x` is open and its task has finished. -/
def restOfX (w : Solo Unit) : Bool × List String × Option EmitPc × List Job × List Job :=
  (w.session.closed, w.session.contexts, (w.session.objs "x").map Context.emit, w.pool.queued,
    w.pool.running)

theorem runX_rests {acts : List (SoloAct Unit)} {w : Solo Unit} (hrun : runX acts = some w)
    (hrest : (runX acts).map restOfX = some (false, ["x"], some .finished, [], [])) :
    w.session.closed = false ∧ w.Quiescent silentOps 0 := by
  have hread := runX_reads restOfX hrun hrest
  simp only [restOfX, Prod.mk.injEq] at hread
  obtain ⟨hopen, hcontexts, hemit, hqueued, hrunning⟩ := hread
  refine ⟨hopen, quiescent_of_finished (run_soloInv_any hrun) hopen ?_ hqueued hrunning⟩
  rw [hcontexts]
  intro c hc ctx hctx
  rw [List.mem_singleton.mp hc] at hctx
  rw [hctx] at hemit
  exact Option.some.inj hemit

/-- The events of one utterance behind its text frame. -/
def oneChunkEvents : List (Event Unit) :=
  [.put "x" (some "Hi.".toList), .put "x" none, .submitted "x" "Hi.".toList "F1",
    .synthesized "x" "Hi.".toList oneSample, .sendStarted (encodeChunk "x" [0, 0]),
    .delivered (encodeChunk "x" [0, 0]), .sendStarted (encodeDone "x"),
    .delivered (encodeDone "x")]

theorem oneChunkRun_rests : ∃ w ctx, runX oneChunkRun = some w ∧ w.session.closed = false ∧
    w.Quiescent silentOps 0 ∧ w.session.objs "x" = some ctx ∧ Unharmed "x" w.session.trace ∧
    w.session.trace = .textHandled (textOfX "Hi." false 50) :: oneChunkEvents := by
  obtain ⟨w, hrun⟩ := Option.isSome_iff_exists.mp
    (show (runX oneChunkRun).isSome = true by decide +kernel)
  obtain ⟨hopen, hrest⟩ := runX_rests hrun (by decide +kernel)
  have htrace : w.session.trace = .textHandled (textOfX "Hi." false 50) :: oneChunkEvents :=
    runX_reads (fun w => w.session.trace) hrun (by decide +kernel)
  have hobj : (w.session.objs "x").isSome = true :=
    runX_reads (fun w => (w.session.objs "x").isSome) hrun (by decide +kernel)
  obtain ⟨ctx, hctx⟩ := Option.isSome_iff_exists.mp hobj
  refine ⟨w, ctx, hrun, hopen, hrest, hctx, ?_, htrace⟩
  rw [htrace]
  exact ⟨by simp [oneChunkEvents], by simp [oneChunkEvents, oneSample],
    by simp [oneChunkEvents]⟩

theorem context_output_one_chunk : ∃ w, runX oneChunkRun = some w ∧
    deliveries (ofContext "x" w.session.trace) =
      contextOutput silentOps "x" 50 (fun _ => [()]) (spokenChunks [textOfX "Hi." false 50]) := by
  obtain ⟨w, ctx, hrun, hopen, hrest, -, hc, htrace⟩ := oneChunkRun_rests
  have hworker : StepsMeet (Solo.step silentOps 0)
      (WorkerMeets (WorkerIs fun _ _ => [()])) (Solo.init Unit 1) oneChunkRun := by
    refine workerMeets_of_outcomes fun owner o hmem chunk voice r hr => ?_
    simp only [oneChunkRun, List.mem_cons, SoloAct.exec.injEq, ExecAct.finish.injEq,
      reduceCtorEq, List.not_mem_nil, false_or, or_false] at hmem
    rw [hmem.2] at hr
    exact (Except.ok.inj hr).symm
  have htexts : texts (ofContext "x" w.session.trace) = [] ++ textOfX "Hi." false 50 :: [] := by
    rw [htrace]
    rfl
  exact ⟨w, hrun, (context_output hworker hrun hopen hrest hc htexts (by simp) rfl rfl).1⟩

/-- The same at ten samples a second. -/
def lowRateRun : List (SoloAct Unit) :=
  [.sess (.handle (.text (textOfX "Hi." false 10))), .sess (.emit "x"), .sess (.emit "x"),
    .exec (.start ⟨0, "x"⟩), .exec (.finish ⟨0, "x"⟩ oneSample), .sess (.emit "x"),
    .sess (.sent "x" none)]

/-- At ten samples a second a frame of 20 ms holds no sample and `pipeline` raises: an
unharmed context at rest got an error frame, and no `done` behind whatever frames. -/
theorem low_rate_not_served : ∃ w, runX lowRateRun = some w ∧ w.session.closed = false ∧
    w.Quiescent silentOps 0 ∧ Unharmed "x" w.session.trace ∧
    texts (ofContext "x" w.session.trace) = [textOfX "Hi." false 10] ∧
    deliveries (ofContext "x" w.session.trace) = [encodeError (some "x")
      "server: frame_ms=20.0 at sample_rate=10 yields 0 samples"] ∧
    ¬ ∃ frames : List Bytes, deliveries (ofContext "x" w.session.trace) =
      frames.map (encodeChunk "x") ++ [encodeDone "x"] := by
  obtain ⟨w, hrun⟩ := Option.isSome_iff_exists.mp
    (show (runX lowRateRun).isSome = true by decide +kernel)
  obtain ⟨hopen, hrest⟩ := runX_rests hrun (by decide +kernel)
  have htrace : w.session.trace =
      [.textHandled (textOfX "Hi." false 10), .put "x" (some "Hi.".toList), .put "x" none,
        .submitted "x" "Hi.".toList "F1", .synthesized "x" "Hi.".toList oneSample,
        .sendStarted (encodeError (some "x")
          "server: frame_ms=20.0 at sample_rate=10 yields 0 samples"),
        .delivered (encodeError (some "x")
          "server: frame_ms=20.0 at sample_rate=10 yields 0 samples")] :=
    runX_reads (fun w => w.session.trace) hrun (by decide +kernel)
  have hframes : deliveries (ofContext "x" w.session.trace) = [encodeError (some "x")
      "server: frame_ms=20.0 at sample_rate=10 yields 0 samples"] := by
    rw [htrace]
    rfl
  refine ⟨w, hrun, hopen, hrest, ?_, ?_, hframes, ?_⟩
  · rw [htrace]
    exact ⟨by simp, by simp [oneSample], by simp⟩
  · rw [htrace]
    rfl
  · intro hanswered
    obtain ⟨frames, heq⟩ := hanswered
    rw [hframes] at heq
    have hlast := congrArg List.getLast? heq
    simp [encodeError, encodeDone] at hlast

end SupertonicServer
