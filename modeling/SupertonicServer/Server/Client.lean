import SupertonicServer.Audio.Frames
import SupertonicServer.Server.Rest
import SupertonicServer.Wire.Text

/-!
# What the client hears

The far end of a connection: a client that reads the texts off the socket, takes the base64
PCM out of the chunks of one context and plays the samples. The two theorems go through all
layers at once: JSON, base64, little-endian frames, the emit task with its queue, the pool it
shares with other sessions, and the coalescer. `heard_at_done` says that a client that was
told `done` has heard everything, `heard_at_rest` that it will be told.
-/

namespace SupertonicServer

open Coalescer (Chunk)
open Wire (Bytes IncomingText ServerFrame encodeChunk encodeDone readFrame)
open Audio
open Pool
open Lib (run StepsMeet)

variable {F : Type}

/-! ## The far end -/

/-- The texts that reached the client. -/
def sentTexts (tr : List (Event F)) : List String := (deliveries tr).map ServerFrame.text

/-- The frames a client reads. -/
def framesRead (depth : Nat) (texts : List String) : List ServerFrame :=
  texts.filterMap (readFrame depth)

/-- The PCM of a chunk of the context `c`. -/
def pcmOf (c : String) : ServerFrame → Bytes
  | .chunk d pcm => if d = c then pcm else []
  | _ => []

/-- The samples a client plays for the context `c`. -/
def collect (depth : Nat) (c : String) (texts : List String) : List (BitVec 16) :=
  int16OfLe ((framesRead depth texts).flatMap (pcmOf c))

/-- The samples a result becomes at the rate `sr`. -/
def resultSamples (ops : AudioOps F) (sr : Int) (wav : List F) : List (BitVec 16) :=
  match resample ops wav nativeSr sr with
  | .ok out => f32ToInt16 ops out
  | .error _ => []

/-- The client reads the frames that were delivered. -/
theorem framesRead_sentTexts (depth : Nat) (tr : List (Event F)) :
    framesRead (depth + 1) (sentTexts tr) = deliveries tr := by
  unfold framesRead sentTexts
  induction deliveries tr with
  | nil => rfl
  | cons f fs ih =>
    rw [List.map_cons, List.filterMap_cons, Wire.readFrame_eq]
    exact congrArg (f :: ·) ih

/-- Frames of other contexts, and of none, hold no PCM for `c`. -/
theorem flatMap_pcmOf_ofContext (c : String) (tr : List (Event F)) :
    (deliveries tr).flatMap (pcmOf c) = (deliveries (ofContext c tr)).flatMap (pcmOf c) := by
  induction tr with
  | nil => rfl
  | cons e tr ih =>
    by_cases he : e.contextId? = some c
    · rw [ofContext_cons_self he, deliveries_cons, deliveries_cons, List.flatMap_append,
        List.flatMap_append, ih]
    · have hskip : ofContext c (e :: tr) = ofContext c tr := by
        rw [ofContext, List.filter_cons, if_neg (by simpa using he)]
        rfl
      rw [hskip, deliveries_cons, List.flatMap_append, ih]
      cases e with
      | delivered f =>
        have hnone : pcmOf c f = [] := by
          cases f with
          | chunk d pcm =>
            have hd : d ≠ c := by
              intro hd
              exact he (congrArg some hd)
            rw [pcmOf, if_neg hd]
          | done d => rfl
          | error d message => rfl
        simp [hnone]
      | _ => rfl

/-! ## Shipments, played -/

section

variable {ops : AudioOps F} {c : String} {sr : Int}

theorem flatMap_pcmOf_sent (s : Shipment ops sr) :
    (s.sent c).flatMap (pcmOf c) = s.frames.flatten := by
  unfold Shipment.sent
  induction s.frames with
  | nil => rfl
  | cons pcm frames ih =>
    rw [List.map_cons, List.flatMap_cons, ih, List.flatten_cons]
    show (if c = c then pcm else []) ++ frames.flatten = _
    rw [if_pos rfl]

theorem length_flatten_even {n : Nat} {frames : List Bytes}
    (h : ∀ frame ∈ frames, frame.length = 2 * n) : frames.flatten.length % 2 = 0 := by
  induction frames with
  | nil => rfl
  | cons frame frames ih =>
    rw [List.forall_mem_cons] at h
    rw [List.flatten_cons, List.length_append, h.1]
    have := ih h.2
    omega

/-- The samples of shipments, one after another: those of every result, and less than a frame
of silence behind each. -/
theorem int16OfLe_shipments {R : List (Shipment ops sr)} {synth : Chunk → List F}
    (hR : ∀ s ∈ R, s.result = ⟨synth s.chunk, nativeSr⟩) :
    ∃ silences : List Nat, silences.length = R.length ∧ (∀ k ∈ silences, k < frameSamples sr) ∧
      int16OfLe ((R.flatMap (Shipment.sent c)).flatMap (pcmOf c)) =
        (List.zipWith (fun s k => resultSamples ops sr (synth s.chunk) ++ List.replicate k 0)
          R silences).flatten := by
  induction R with
  | nil => exact ⟨[], rfl, by simp, rfl⟩
  | cons s R ih =>
    rw [List.forall_mem_cons] at hR
    obtain ⟨silences, hlen, hsmall, hsamples⟩ := ih hR.2
    have hok := s.ok
    rw [hR.1] at hok
    obtain ⟨out, hout, hframes⟩ := framesOf_pipeline (by decide : (0 : Int) < nativeSr) hok
    obtain ⟨silence, hsilence, hread⟩ := hframes.samples
    have hresult : resultSamples ops sr (synth s.chunk) = f32ToInt16 ops out := by
      unfold resultSamples
      rw [hout]
    refine ⟨silence :: silences, by simp [hlen], ?_, ?_⟩
    · intro k hk
      rcases List.mem_cons.mp hk with rfl | hk
      · exact hsilence
      · exact hsmall k hk
    · rw [List.flatMap_cons, List.flatMap_append, flatMap_pcmOf_sent,
        int16OfLe_append (length_flatten_even hframes.width), hread, hsamples,
        List.zipWith_cons_cons, List.flatten_cons, hresult]

end

/-! ## The utterance -/

/-- The samples are those of the chunks, in order, each followed by less than one frame of
silence. -/
def Plays (ops : AudioOps F) (sr : Int) (synth : Chunk → List F) (chunks : List Chunk)
    (samples : List (BitVec 16)) : Prop :=
  ∃ silences : List Nat, silences.length = chunks.length ∧ (∀ k ∈ silences, k < frameSamples sr) ∧
    samples = (List.zipWith (fun chunk k =>
      resultSamples ops sr (synth chunk) ++ List.replicate k 0) chunks silences).flatten

variable {ops : AudioOps F} {sid : Nat}

/-- A context keeps the rate of its first text frame. -/
theorem rate_of_first {w : Solo F} {Res : Chunk → String → Outcome F → Prop}
    (hinv : SoloInv ops Res sid w) {c : String} {ctx : Context}
    (hctx : w.session.objs c = some ctx) {pre post : List IncomingText} {m first : IncomingText}
    (htexts : texts (ofContext c w.session.trace) = pre ++ m :: post)
    (hfirst : (pre ++ [m]).head? = some first) :
    ctx.outputSr = first.outputFormat.sampleRate := by
  obtain ⟨first', hhead, -, hrate⟩ := (hinv.lives c ctx hctx).heard.first
  obtain rfl : first' = first := by
    have hhead' : (texts (ofContext c w.session.trace)).head? = some first' := hhead
    rw [htexts, show pre ++ m :: post = (pre ++ [m]) ++ post by simp, List.head?_append,
      hfirst] at hhead'
    exact (Option.some.inj hhead').symm
  exact hrate

/-- What the client of a session that runs as if alone has heard when it has read `done`. -/
theorem Alone.plays {s : Server F} {w : Solo F} (halone : Alone ops sid s w) {c : String}
    (hstop : ¬ Stopped c (s.sessions sid).trace)
    {pre post : List IncomingText} {m first : IncomingText}
    (htexts : texts (ofContext c (s.sessions sid).trace) = pre ++ m :: post)
    (hpre : ∀ x ∈ pre, x.continue_ = true) (hm : m.continue_ = false)
    (hfirst : (pre ++ [m]).head? = some first) {synth : Chunk → List F}
    (hsource : ∀ chunk r, (chunk, .ok r) ∈ syntheses (ofContext c (s.sessions sid).trace) →
      r = ⟨synth chunk, nativeSr⟩) {depth : Nat}
    (hdone : .done c ∈ framesRead (depth + 1) (sentTexts (s.sessions sid).trace)) :
    Plays ops first.outputFormat.sampleRate synth (spokenChunks (pre ++ [m]))
      (collect (depth + 1) c (sentTexts (s.sessions sid).trace)) := by
  have hinv := halone.inv
  rw [← halone.session] at hstop htexts hsource hdone ⊢
  rw [framesRead_sentTexts] at hdone
  have hdone' : encodeDone c ∈ deliveries (ofContext c w.session.trace) := by
    obtain ⟨e, he, hee⟩ := List.mem_filterMap.mp hdone
    cases e with
    | delivered f =>
      obtain rfl : f = .done c := Option.some.inj hee
      exact List.mem_filterMap.mpr ⟨_, mem_ofContext.mpr ⟨he, rfl⟩, rfl⟩
    | _ => exact absurd hee (by simp)
  have hmem : m ∈ texts (ofContext c w.session.trace) := by rw [htexts]; simp
  obtain ⟨e, he, -⟩ := List.mem_filterMap.mp hmem
  obtain ⟨hetrace, hec⟩ := mem_ofContext.mp he
  obtain ⟨ctx, hctx⟩ := Option.ne_none_iff_exists'.mp (hinv.wf.trace e hetrace c hec)
  obtain ⟨R, hchunks, hsyn, hdel⟩ := hinv.done_shipped hctx hstop htexts hpre hm hdone'
  have hsr := rate_of_first hinv hctx htexts hfirst
  have hR : ∀ s ∈ R, s.result = ⟨synth s.chunk, nativeSr⟩ := by
    intro s hs
    apply hsource s.chunk s.result
    rw [hsyn]
    exact List.mem_map_of_mem (f := Shipment.record) hs
  obtain ⟨silences, hlen, hsmall, hsamples⟩ := int16OfLe_shipments (c := c) hR
  refine ⟨silences, by rw [hlen, ← hchunks, List.length_map], by rwa [hsr] at hsmall, ?_⟩
  rw [collect, framesRead_sentTexts, flatMap_pcmOf_ofContext, hdel, List.flatMap_append]
  show int16OfLe ((R.flatMap (Shipment.sent c)).flatMap (pcmOf c) ++ []) = _
  rw [List.append_nil, hsamples, ← hchunks, ← hsr, List.zipWith_map_left]

/-- **At `done` the client has heard the whole utterance**, in every run of the server in
which session `sid` reads only flags of its own: when the client of that session has read
`done` for a context `c` that was never cancelled and not closed, the samples it played for `c`
are those of the chunks of the text frames of `c`, up to the first with `continue=False`. The
texts of all other contexts, sessions and error reports leave no sample among them. -/
theorem heard_at_done {n : ℕ+} {acts : List (ServerAct F)} {s : Server F}
    (hown : StepsMeet (Server.step ops) (FlagsOwn sid) (Server.init F n) acts)
    (hrun : run (Server.step ops) (Server.init F n) acts = some s)
    {c : String} (hstop : ¬ Stopped c (s.sessions sid).trace)
    {pre post : List IncomingText} {m first : IncomingText}
    (htexts : texts (ofContext c (s.sessions sid).trace) = pre ++ m :: post)
    (hpre : ∀ x ∈ pre, x.continue_ = true) (hm : m.continue_ = false)
    (hfirst : (pre ++ [m]).head? = some first) {synth : Chunk → List F}
    (hsource : ∀ chunk r, (chunk, .ok r) ∈ syntheses (ofContext c (s.sessions sid).trace) →
      r = ⟨synth chunk, nativeSr⟩) {depth : Nat}
    (hdone : .done c ∈ framesRead (depth + 1) (sentTexts (s.sessions sid).trace)) :
    Plays ops first.outputFormat.sampleRate synth (spokenChunks (pre ++ [m]))
      (collect (depth + 1) c (sentTexts (s.sessions sid).trace)) := by
  obtain ⟨w, -, halone⟩ := run_alone hown hrun
  exact halone.plays hstop htexts hpre hm hfirst hsource hdone

/-- The pool of a session alone holds no more than the pool of the server. -/
theorem Alone.quiescent {s : Server F} {w : Solo F} (halone : Alone ops sid s w)
    (hrest : s.AtRest) : w.Quiescent ops sid := by
  have hshare := halone.share
  have hempty : ∀ l : List Job, (∀ j ∈ l, j.owner.session = sid) →
      (l.filter fun j => j.owner.session = sid).map Job.ask = [] → l = [] := by
    intro l hl hnil
    rw [List.map_eq_nil_iff, List.filter_eq_nil_iff] at hnil
    refine List.eq_nil_iff_forall_not_mem.mpr fun j hj => hnil j hj (by simpa using hl j hj)
  have htask : ∀ c ctx, w.session.objs c = some ctx →
      ctx.emit = .finished ∨ (ctx.emit = .atGet ∧ ctx.queue = []) := by
    intro c ctx hctx
    rw [halone.session] at hctx
    exact (hrest.tasks sid c ctx hctx).imp_right And.right
  constructor
  · intro c
    cases hctx : w.session.objs c with
    | none => simp [Session.step, hctx]
    | some ctx =>
      rcases htask c ctx hctx with hfin | ⟨hget, hqueue⟩
      · simp [Session.step, hctx, Context.resume, hfin]
      · simp [Session.step, hctx, Context.resume, hget, hqueue]
  · intro c exc
    cases hctx : w.session.objs c with
    | none => simp [Session.step, hctx]
    | some ctx =>
      rcases htask c ctx hctx with hfin | ⟨hget, -⟩
      · simp [Session.step, hctx, Context.sent, hfin]
      · simp [Session.step, hctx, Context.sent, hget]
  · refine hempty _ (fun j hj => halone.only j (by simp [WorkerPool.jobs, hj])) ?_
    have hqueued := congrArg Share.queued hshare
    simpa [WorkerPool.share, hrest.queued] using hqueued.symm
  · refine hempty _ (fun j hj => halone.only j (by simp [WorkerPool.jobs, hj])) ?_
    have hrunning := congrArg Share.running hshare
    simpa [WorkerPool.share, hrest.running] using hrunning.symm

/-- At rest the client of an open session that runs as if alone has read `done` for every
context with a final frame that was not harmed, at a rate that can be served. -/
theorem Alone.done_at_rest {s : Server F} {w : Solo F} (halone : Alone ops sid s w)
    (hrest : s.AtRest) (hopen : (s.sessions sid).closed = false) {c : String}
    (hc : Unharmed c (s.sessions sid).trace)
    {pre post : List IncomingText} {m first : IncomingText}
    (htexts : texts (ofContext c (s.sessions sid).trace) = pre ++ m :: post)
    (hpre : ∀ x ∈ pre, x.continue_ = true) (hm : m.continue_ = false)
    (hfirst : (pre ++ [m]).head? = some first) (hserve : Servable first.outputFormat.sampleRate)
    {synth : Chunk → List F}
    (hsource : ∀ chunk r, (chunk, .ok r) ∈ syntheses (ofContext c (s.sessions sid).trace) →
      r = ⟨synth chunk, nativeSr⟩) (depth : Nat) :
    .done c ∈ framesRead (depth + 1) (sentTexts (s.sessions sid).trace) := by
  have hsession := halone.session
  rw [framesRead_sentTexts, ← hsession]
  rw [← hsession] at hopen hc htexts hsource
  obtain ⟨ctx, hctx, hrested, -⟩ :=
    rested_of_final halone.inv hopen (halone.quiescent hrest) hc htexts hpre hm
  have hsr := rate_of_first halone.inv hctx htexts hfirst
  -- at this rate `pipeline` raises on no result
  obtain ⟨R, -, -, hdel⟩ := hrested.all fun chunk r hr => by
    rw [hsource chunk r hr, hsr]
    exact (pipeline_ok_iff ops (synth chunk) (by decide : (0 : Int) < nativeSr)).mpr hserve
  have hin : encodeDone c ∈ deliveries (ofContext c w.session.trace) := by
    rw [hdel]
    simp
  exact (deliveries_ofContext c w.session.trace).subset hin

/-- Where nothing was cancelled and the session is open, a context has not been stopped. -/
theorem Unharmed.not_stopped {s : Session F} (hwf : s.Wf) (hopen : s.closed = false) {c : String}
    (hc : Unharmed c s.trace) : ¬ Stopped c s.trace := by
  intro hstop
  rcases hstop with hcancel | hclosing
  · exact hc.uncancelled hcancel
  · exact absurd (hwf.closes c hclosing) (by simp [hopen])

/-- **At rest the client has heard the whole utterance**: a server at rest, where every
schedule brings it, owes nothing to an open session with ids of its own. For every context `c`
with a final frame, at a rate that can be served, that was not cancelled and none of whose
syntheses and sends failed, the client has read `done` and played the chunks of the text
frames of `c` up to the first with `continue=False`. -/
theorem heard_at_rest {n : ℕ+} {acts : List (ServerAct F)} {s : Server F}
    (hrun : run (Server.step ops) (Server.init F n) acts = some s) (hrest : s.AtRest)
    (hown : s.OwnIds sid) (hopen : (s.sessions sid).closed = false) {c : String}
    (hc : Unharmed c (s.sessions sid).trace)
    {pre post : List IncomingText} {m first : IncomingText}
    (htexts : texts (ofContext c (s.sessions sid).trace) = pre ++ m :: post)
    (hpre : ∀ x ∈ pre, x.continue_ = true) (hm : m.continue_ = false)
    (hfirst : (pre ++ [m]).head? = some first) (hserve : Servable first.outputFormat.sampleRate)
    {synth : Chunk → List F}
    (hsource : ∀ chunk r, (chunk, .ok r) ∈ syntheses (ofContext c (s.sessions sid).trace) →
      r = ⟨synth chunk, nativeSr⟩) (depth : Nat) :
    .done c ∈ framesRead (depth + 1) (sentTexts (s.sessions sid).trace) ∧
    Plays ops first.outputFormat.sampleRate synth (spokenChunks (pre ++ [m]))
      (collect (depth + 1) c (sentTexts (s.sessions sid).trace)) := by
  obtain ⟨w, -, halone⟩ := run_alone (flagsOwn_of_ownIds hrun hown) hrun
  have hstop := hc.not_stopped (halone.wf.sessions sid) hopen
  have hdone := halone.done_at_rest hrest hopen hc htexts hpre hm hfirst hserve hsource depth
  exact ⟨hdone, halone.plays hstop htexts hpre hm hfirst hsource hdone⟩

/-- The one utterance of session 0, on a server with two workers. -/
def spokenRun : List (ServerAct Unit) :=
  oneChunkRun.map fun
    | .sess a => .sess 0 a
    | .exec e => .exec e

/-- A server whose session 0 has finished its one context, and that has no other session. -/
theorem one_session_rests {s : Server Unit} (hwf : s.Wf)
    (hlistens : (s.sessions 0).recv = .listening)
    (hself : restOfX { pool := s.pool, session := s.sessions 0 } =
      (false, ["x"], some .finished, [], []))
    (hother : ∀ k, s.sessions (k + 1) = Session.init Unit) :
    (s.sessions 0).closed = false ∧ s.OwnIds 0 ∧ s.AtRest := by
  simp only [restOfX, Prod.mk.injEq] at hself
  obtain ⟨hopen, htable, hemit, hqueued, hrunning⟩ := hself
  have hnone : ∀ sid, sid ≠ 0 → ∀ c, (s.sessions sid).objs c = none := by
    intro sid hne c
    obtain ⟨k, rfl⟩ := Nat.exists_eq_succ_of_ne_zero hne
    rw [hother k]
    rfl
  refine ⟨hopen, fun c _ sid hne => hnone sid hne c, hqueued, hrunning, ?_, ?_⟩
  · intro sid
    cases sid with
    | zero => exact Or.inl hlistens
    | succ k =>
      rw [hother k]
      exact Or.inl rfl
  · intro sid c ctx hctx
    by_cases hsid : sid = 0
    · subst hsid
      have hc := (hwf.sessions 0).complete hopen c (by rw [hctx]; simp)
      rw [htable, List.mem_singleton] at hc
      rw [hc] at hctx
      rw [hctx] at hemit
      exact Or.inl (Option.some.inj hemit)
    · rw [hnone sid hsid c] at hctx
      exact absurd hctx (by simp)

/-- Where it ends. -/
theorem spokenRun_ends : ∃ s, run (Server.step silentOps) (Server.init Unit 2) spokenRun = some s ∧
    (s.sessions 0).trace = .textHandled (textOfX "Hi." false 50) :: oneChunkEvents ∧
    (s.sessions 0).closed = false ∧ s.OwnIds 0 ∧ s.AtRest := by
  obtain ⟨s, hrun⟩ := Option.isSome_iff_exists.mp
    (show (run (Server.step silentOps) (Server.init Unit 2) spokenRun).isSome = true by
      decide +kernel)
  have hwf := Lib.run_inv (fun _ _ _ h hs => step_serverWf h hs) (init_serverWf 2) hrun
  have htrace := Lib.run_reads (f := fun s => (s.sessions 0).trace)
    (b := .textHandled (textOfX "Hi." false 50) :: oneChunkEvents) hrun (by decide +kernel)
  have hlistens := Lib.run_reads (f := fun s => (s.sessions 0).recv) (b := .listening) hrun
    (by decide +kernel)
  have hself := Lib.run_reads (f := fun s => restOfX { pool := s.pool, session := s.sessions 0 })
    (b := (false, ["x"], some .finished, [], [])) hrun (by decide +kernel)
  refine ⟨s, hrun, htrace, one_session_rests hwf hlistens hself fun k => ?_⟩
  exact run_idle (by simp [spokenRun, oneChunkRun]) hrun

/-- What the theorems below ask of that history. -/
theorem spoken_history {s : Server Unit}
    (htrace : (s.sessions 0).trace = .textHandled (textOfX "Hi." false 50) :: oneChunkEvents) :
    Unharmed "x" (s.sessions 0).trace ∧
    texts (ofContext "x" (s.sessions 0).trace) = [] ++ textOfX "Hi." false 50 :: [] ∧
    (∀ chunk r, (chunk, .ok r) ∈ syntheses (ofContext "x" (s.sessions 0).trace) →
      r = ⟨[()], nativeSr⟩) := by
  rw [htrace]
  refine ⟨⟨by simp [oneChunkEvents], by simp [oneChunkEvents, oneSample],
    by simp [oneChunkEvents]⟩, rfl, ?_⟩
  intro chunk r hr
  have hone : syntheses (ofContext "x" (.textHandled (textOfX "Hi." false 50) :: oneChunkEvents)) =
      [("Hi.".toList, oneSample)] := rfl
  rw [hone, List.mem_singleton, Prod.mk.injEq] at hr
  exact Except.ok.inj hr.2

/-- One chunk, and a frame of one sample leaves no room for silence. -/
theorem plays_one_chunk {samples : List (BitVec 16)}
    (h : Plays silentOps 50 (fun _ => [()]) (spokenChunks [textOfX "Hi." false 50]) samples) :
    samples = resultSamples silentOps 50 [()] := by
  obtain ⟨silences, hlen, hsmall, rfl⟩ := h
  obtain ⟨k, rfl⟩ : ∃ k, silences = [k] := by
    apply List.length_eq_one_iff.mp
    rw [hlen]
    decide +kernel
  have hk : k < frameSamples 50 := hsmall k (List.mem_singleton_self k)
  rw [show frameSamples 50 = 1 by decide +kernel] at hk
  obtain rfl : k = 0 := by omega
  decide +kernel

theorem heard_at_done_spoken : ∃ s,
    run (Server.step silentOps) (Server.init Unit 2) spokenRun = some s ∧
    collect 1 "x" (sentTexts (s.sessions 0).trace) = resultSamples silentOps 50 [()] := by
  obtain ⟨s, hrun, htrace, hopen, hown, -⟩ := spokenRun_ends
  obtain ⟨hc, htexts, hsource⟩ := spoken_history htrace
  have hstop : ¬ Stopped "x" (s.sessions 0).trace := by
    rw [htrace]
    simp [Stopped, oneChunkEvents]
  have hdone : .done "x" ∈ framesRead (0 + 1) (sentTexts (s.sessions 0).trace) := by
    rw [framesRead_sentTexts, htrace]
    simp [oneChunkEvents, deliveries, encodeDone]
  exact ⟨s, hrun, plays_one_chunk (heard_at_done (flagsOwn_of_ownIds hrun hown) hrun hstop htexts
    (by simp) rfl rfl hsource hdone)⟩

theorem heard_at_rest_spoken : ∃ s,
    run (Server.step silentOps) (Server.init Unit 2) spokenRun = some s ∧ s.AtRest ∧
    .done "x" ∈ framesRead 1 (sentTexts (s.sessions 0).trace) ∧
    collect 1 "x" (sentTexts (s.sessions 0).trace) = resultSamples silentOps 50 [()] := by
  obtain ⟨s, hrun, htrace, hopen, hown, hrest⟩ := spokenRun_ends
  obtain ⟨hc, htexts, hsource⟩ := spoken_history htrace
  obtain ⟨hdone, hplays⟩ := heard_at_rest hrun hrest hown hopen hc htexts (by simp) rfl rfl
    (by decide +kernel) hsource 0
  exact ⟨s, hrun, hrest, hdone, plays_one_chunk hplays⟩

end SupertonicServer
