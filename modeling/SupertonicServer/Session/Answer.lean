import SupertonicServer.Session.Output

/-!
# Which final frames are answered

A context stays in the table of its session after its emit task has ended, and the task takes
only the first EOF from its queue. So a frame with `continue=False` that reuses a context is
answered exactly when it only repeats the flush and the answer is still to come: nothing with
text in it may follow the first final frame, and `done` may not have gone out yet. Anything
else that is sent to the context later sits in its queue for ever.
-/

namespace SupertonicServer

open Coalescer (Chunk)
open Wire (Bytes IncomingText ServerFrame encodeChunk encodeDone encodeError)
open Audio (AudioOps SynthResult pipeline)
open Pool
open Lib (run)

variable {F : Type}

/-- The text frames behind the first one with `continue=False`. -/
def afterFinal : List IncomingText → List IncomingText
  | [] => []
  | m :: ms => if m.continue_ then afterFinal ms else ms

/-- `text` was synthesized and shipped: it is in the chunks of results whose frames have all
been delivered. -/
def Spoken (ops : AudioOps F) (c : String) (sr : Int) (tr : List (Event F))
    (text : List Char) : Prop :=
  ∃ R : List (Shipment ops sr), R.map Shipment.record <+: syntheses tr ∧
    R.flatMap (Shipment.sent c) <+: deliveries tr ∧ text <+: (R.map Shipment.chunk).flatten

/-- What the final frame `m` is owed, handled after `pre` and before `post` in the history of
its context: the transcripts up to it are shipped, and a `done` follows. -/
structure Answered (ops : AudioOps F) (c : String) (sr : Int) (pre : List (Event F))
    (m : IncomingText) (post : List (Event F)) : Prop where
  spoken : Spoken ops c sr (pre ++ .textHandled m :: post) (transcripts (texts pre ++ [m]))
  done : encodeDone c ∈ deliveries post

/-- When it gets it: no text is late, no `done` has gone out before, and every result can be
turned into frames. -/
structure Answerable (ops : AudioOps F) (c : String) (sr : Int) (pre : List (Event F))
    (m : IncomingText) (post : List (Event F)) : Prop where
  nothingLate : ∀ x ∈ afterFinal (texts pre ++ [m]), x.transcript = ""
  unanswered : encodeDone c ∉ deliveries pre
  audible : ∀ chunk r, (chunk, .ok r) ∈ syntheses (pre ++ .textHandled m :: post) →
    ∃ frames, pipeline ops r.wavF32 r.sampleRate sr = .ok frames

/-- The first final frame splits the frames into those it closes and those behind it. -/
theorem afterFinal_split {ms : List IncomingText} (h : ∃ m ∈ ms, m.continue_ = false) :
    ∃ pre m, ms = pre ++ m :: afterFinal ms ∧ (∀ x ∈ pre, x.continue_ = true) ∧
      m.continue_ = false := by
  induction ms with
  | nil =>
    obtain ⟨m, hm, -⟩ := h
    exact absurd hm List.not_mem_nil
  | cons x ms ih =>
    cases hx : x.continue_ with
    | false => exact ⟨[], x, by simp [afterFinal, hx], by simp, hx⟩
    | true =>
      have hrest : ∃ m ∈ ms, m.continue_ = false := by
        obtain ⟨m, hm, hcont⟩ := h
        rcases List.mem_cons.mp hm with rfl | hm
        · rw [hx] at hcont
          exact absurd hcont (by simp)
        · exact ⟨m, hm, hcont⟩
      obtain ⟨pre, m, hms, hpre, hm⟩ := ih hrest
      refine ⟨x :: pre, m, ?_, ?_, hm⟩
      · rw [afterFinal, if_pos hx, List.cons_append, ← hms]
      · intro y hy
        rcases List.mem_cons.mp hy with rfl | hy
        · exact hx
        · exact hpre y hy

theorem transcripts_append (ms ms' : List IncomingText) :
    transcripts (ms ++ ms') = transcripts ms ++ transcripts ms' := by
  simp [transcripts]

theorem transcripts_eq_nil {ms : List IncomingText} :
    transcripts ms = [] ↔ ∀ x ∈ ms, x.transcript = "" := by
  simp [transcripts]

/-- What is spoken is no longer than what was synthesized. -/
theorem Spoken.length_le {ops : AudioOps F} {c : String} {sr : Int} {tr : List (Event F)}
    {text : List Char} (h : Spoken ops c sr tr text) :
    text.length ≤ ((syntheses tr).map Prod.fst).flatten.length := by
  obtain ⟨R, ⟨more, hsyn⟩, -, htext⟩ := h
  have hchunks : R.map Shipment.chunk = (R.map Shipment.record).map Prod.fst := by
    rw [List.map_map]
    rfl
  apply htext.length_le.trans
  rw [hchunks, ← hsyn, List.map_append, List.flatten_append, List.length_append]
  omega

section

variable {ops : AudioOps F} {c : String} {sr : Int}

theorem done_notMem_sent (R : List (Shipment ops sr)) :
    encodeDone c ∉ R.flatMap (Shipment.sent c) := by
  intro hmem
  obtain ⟨pcm, hpcm⟩ := sent_isChunk _ hmem
  exact absurd hpcm (by simp [encodeDone, encodeChunk])

/-- A history at its end that holds a `done` holds one, as its last delivery, and its
shipments are all there is. -/
theorem Rested.of_done {tr : List (Event F)} (h : Rested ops c sr tr)
    (hdone : encodeDone c ∈ deliveries tr) :
    ∃ R : List (Shipment ops sr), aheadOfEof (puts tr) = R.map Shipment.chunk ∧
      syntheses tr = R.map Shipment.record ∧ (deliveries tr).count (encodeDone c) = 1 := by
  cases h with
  | answered R hahead hsyn hdel =>
    refine ⟨R, hahead, hsyn, ?_⟩
    rw [hdel, List.count_append, List.count_eq_zero_of_not_mem (done_notMem_sent R)]
    simp
  | broken R chunk result rest message hpipe hahead hsyn hdel =>
    rw [hdel] at hdone
    rcases List.mem_append.mp hdone with hmem | hmem
    · exact absurd hmem (done_notMem_sent R)
    · exact absurd (List.mem_singleton.mp hmem) (by simp [encodeDone, encodeError])

/-- The same question about one history: `pre₀ ++ [m₀]` are the frames up to the first final
one, and the queue held their chunks ahead of its first EOF. -/
theorem Rested.answered_answerable {pre post : List (Event F)} {m m₀ : IncomingText}
    {pre₀ late : List IncomingText} (h : Rested ops c sr (pre ++ .textHandled m :: post))
    (hlate : afterFinal (texts pre ++ [m]) = late)
    (htexts : texts pre ++ [m] = pre₀ ++ m₀ :: late)
    (hahead : aheadOfEof (puts (pre ++ .textHandled m :: post)) = spokenChunks (pre₀ ++ [m₀])) :
    Answered ops c sr pre m post ↔ Answerable ops c sr pre m post := by
  have hdel : deliveries (pre ++ .textHandled m :: post) = deliveries pre ++ deliveries post := by
    simp
  have htranscripts : transcripts (texts pre ++ [m]) =
      transcripts (pre₀ ++ [m₀]) ++ transcripts late := by
    rw [htexts, ← transcripts_append, List.append_assoc]
    rfl
  constructor
  · intro hanswered
    obtain ⟨hspoken, hdone⟩ := hanswered
    obtain ⟨R, hR, hsyn, hcount⟩ := h.of_done (by rw [hdel]; exact List.mem_append_right _ hdone)
    refine ⟨?_, ?_, ?_⟩
    · -- no more was synthesized than the frames up to the first final one hold
      have hlen := hspoken.length_le
      have hall : ((syntheses (pre ++ .textHandled m :: post)).map Prod.fst).flatten =
          transcripts (pre₀ ++ [m₀]) := by
        rw [← spokenChunks_flatten, ← hahead, hR, hsyn, List.map_map]
        rfl
      rw [hall, htranscripts, List.length_append] at hlen
      rw [hlate]
      exact transcripts_eq_nil.mp (List.eq_nil_of_length_eq_zero (by omega))
    · -- there is one `done` in the whole history
      intro hbefore
      rw [hdel, List.count_append] at hcount
      have h1 := List.count_pos_iff.mpr hbefore
      have h2 := List.count_pos_iff.mpr hdone
      omega
    · intro chunk r hmem
      rw [hsyn] at hmem
      obtain ⟨s, -, hs⟩ := List.mem_map.mp hmem
      obtain ⟨rfl, hr⟩ := Prod.mk.inj hs
      cases hr
      exact ⟨s.frames, s.ok⟩
  · intro hanswerable
    obtain ⟨hnothing, hunanswered, haudible⟩ := hanswerable
    obtain ⟨R, hR, hsyn, hdone⟩ := h.all haudible
    refine ⟨⟨R, ?_, ?_, ?_⟩, ?_⟩
    · rw [hsyn]
    · rw [hdone]
      exact List.prefix_append _ _
    · -- late frames without text add nothing to what the shipped chunks hold
      rw [hlate] at hnothing
      rw [htranscripts, transcripts_eq_nil.mpr hnothing, ← spokenChunks_flatten, ← hahead, hR,
        List.append_nil]
    · have hmem : encodeDone c ∈ deliveries (pre ++ .textHandled m :: post) := by
        rw [hdone]
        simp
      rw [hdel] at hmem
      exact (List.mem_append.mp hmem).resolve_left hunanswered

end

/-- **Which final frames are answered**: in every run of an open session on its own pool, at
rest, for an unharmed context `c` and every frame `m` of it with `continue=False`: `m` gets
what it is owed if and only if it is answerable. -/
theorem answered_iff {ops : AudioOps F} {sid : Nat} {n : ℕ+} {acts : List (SoloAct F)}
    {w : Solo F} (hrun : run (Solo.step ops sid) (Solo.init F n) acts = some w)
    (hopen : w.session.closed = false) (hrest : w.Quiescent ops sid) {c : String}
    (hc : Unharmed c w.session.trace) {ctx : Context} (hctx : w.session.objs c = some ctx)
    {pre post : List (Event F)} {m : IncomingText}
    (hsplit : ofContext c w.session.trace = pre ++ .textHandled m :: post)
    (hm : m.continue_ = false) :
    Answered ops c ctx.outputSr pre m post ↔ Answerable ops c ctx.outputSr pre m post := by
  have hinv := run_soloInv_any hrun
  have hfinal : ∃ x ∈ texts pre ++ [m], x.continue_ = false := ⟨m, by simp, hm⟩
  obtain ⟨pre₀, m₀, htexts, hpre₀, hm₀⟩ := afterFinal_split hfinal
  have hall : texts (ofContext c w.session.trace) =
      pre₀ ++ m₀ :: (afterFinal (texts pre ++ [m]) ++ texts post) := by
    rw [hsplit, ← List.cons_append, ← List.append_assoc, ← htexts]
    simp
  obtain ⟨ctx', hctx', hrested, hahead⟩ :=
    rested_of_final hinv hopen hrest hc hall hpre₀ hm₀
  rw [hctx] at hctx'
  cases hctx'
  rw [hsplit] at hrested hahead
  exact hrested.answered_answerable rfl htexts hahead

/-- One utterance is spoken and answered, then the context is used for another. -/
def secondUtteranceRun : List (SoloAct Unit) :=
  oneChunkRun ++ [.sess (.handle (.text (textOfX "Bye." false 50)))]

/-- The second utterance is never synthesized and never answered. -/
theorem second_utterance_lost : ∃ w ctx pre post, runX secondUtteranceRun = some w ∧
    w.session.closed = false ∧ w.Quiescent silentOps 0 ∧ Unharmed "x" w.session.trace ∧
    w.session.objs "x" = some ctx ∧
    ofContext "x" w.session.trace = pre ++ .textHandled (textOfX "Bye." false 50) :: post ∧
    encodeDone "x" ∉ deliveries post ∧
    ¬ Spoken silentOps "x" ctx.outputSr (ofContext "x" w.session.trace)
      (transcripts (texts pre ++ [textOfX "Bye." false 50])) := by
  obtain ⟨w, hrun⟩ := Option.isSome_iff_exists.mp
    (show (runX secondUtteranceRun).isSome = true by decide +kernel)
  obtain ⟨hopen, hrest⟩ := runX_rests hrun (by decide +kernel)
  have htrace : w.session.trace = (.textHandled (textOfX "Hi." false 50) :: oneChunkEvents) ++
      .textHandled (textOfX "Bye." false 50) ::
        [.put "x" (some "Bye.".toList), .put "x" none] :=
    runX_reads (fun w => w.session.trace) hrun (by decide +kernel)
  have hobj : (w.session.objs "x").isSome = true :=
    runX_reads (fun w => (w.session.objs "x").isSome) hrun (by decide +kernel)
  obtain ⟨ctx, hctx⟩ := Option.isSome_iff_exists.mp hobj
  have hsplit := congrArg (ofContext "x") htrace
  rw [ofContext_append, ofContext_cons_self rfl] at hsplit
  refine ⟨w, ctx, _, _, hrun, hopen, hrest, ?_, hctx, hsplit, by decide, fun hspoken => ?_⟩
  · rw [htrace]
    exact ⟨by simp [oneChunkEvents], by simp [oneChunkEvents, oneSample],
      by simp [oneChunkEvents]⟩
  · have hlen := hspoken.length_le
    rw [hsplit] at hlen
    exact absurd hlen (by decide)

/-- One utterance on its own is answered. -/
theorem answered_one_chunk : ∃ w ctx post, runX oneChunkRun = some w ∧
    w.session.objs "x" = some ctx ∧
    ofContext "x" w.session.trace = [] ++ .textHandled (textOfX "Hi." false 50) :: post ∧
    (Answered silentOps "x" ctx.outputSr [] (textOfX "Hi." false 50) post ↔
      Answerable silentOps "x" ctx.outputSr [] (textOfX "Hi." false 50) post) := by
  obtain ⟨w, ctx, hrun, hopen, hrest, hctx, hc, htrace⟩ := oneChunkRun_rests
  have hsplit := congrArg (ofContext "x") htrace
  rw [ofContext_cons_self rfl] at hsplit
  exact ⟨w, ctx, _, hrun, hctx, hsplit, answered_iff hrun hopen hrest hc hctx hsplit rfl⟩

end SupertonicServer
