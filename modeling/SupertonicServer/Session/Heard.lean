import SupertonicServer.Coalescer.Conserve
import SupertonicServer.Session.Story

/-!
# What a context was told

The receive loop runs the text frames of a context through its coalescer into its queue. Up
to the first frame with `continue=False` that is a coalescer pushed once for each frame and
then flushed; behind the EOF of that frame the queue may hold anything later frames put there.
-/

namespace SupertonicServer

open Coalescer (Chunk TextCoalescer Call)
open Wire (IncomingText)
open Audio (AudioOps)
open Pool

variable {F : Type}

/-- The queue items made by a list of text frames, and the coalescer afterwards. -/
def textRun (c : TextCoalescer) : List IncomingText → List (Option Chunk) × TextCoalescer
  | [] => ([], c)
  | m :: ms =>
    let r := textItems c m
    let rest := textRun r.2 ms
    (r.1 ++ rest.1, rest.2)

theorem textRun_append (c : TextCoalescer) (ms ms' : List IncomingText) :
    textRun c (ms ++ ms') =
      ((textRun c ms).1 ++ (textRun (textRun c ms).2 ms').1, (textRun (textRun c ms).2 ms').2) := by
  induction ms generalizing c with
  | nil => rfl
  | cons m ms ih => simp only [List.cons_append, textRun, ih, List.append_assoc]

/-- The pushes of a list of text frames. -/
def pushes (ms : List IncomingText) : List Call := ms.map fun m => .push m.transcript.toList

/-- The transcripts of a list of text frames, one behind the other. -/
def transcripts (ms : List IncomingText) : List Char :=
  (ms.map fun m => m.transcript.toList).flatten

/-- The chunks of `TextCoalescer()` pushed with each transcript and then flushed. -/
def spokenChunks (ms : List IncomingText) : List Chunk :=
  (TextCoalescer.fresh.calls (pushes ms ++ [.flush])).1

theorem spokenChunks_flatten (ms : List IncomingText) :
    (spokenChunks ms).flatten = transcripts ms := by
  have hcons := Coalescer.calls_flatten TextCoalescer.fresh (pushes ms ++ [.flush])
  have hbuf : (TextCoalescer.fresh.calls (pushes ms ++ [.flush])).2.buf = [] := by
    rw [Coalescer.calls_append]
    exact Coalescer.flush_buf _
  rw [hbuf, List.append_nil] at hcons
  unfold spokenChunks
  rw [hcons]
  simp [pushes, transcripts, TextCoalescer.fresh, Call.text, Function.comp_def]

/-- Frames that announce more text only push. -/
theorem textRun_open (c : TextCoalescer) {ms : List IncomingText}
    (hopen : ∀ m ∈ ms, m.continue_ = true) :
    textRun c ms = ((c.calls (pushes ms)).1.map some, (c.calls (pushes ms)).2) := by
  induction ms generalizing c with
  | nil => rfl
  | cons m ms ih =>
    have hm : m.continue_ = true := hopen m List.mem_cons_self
    have hitems : textItems c m =
        ((c.push m.transcript.toList).1.map some, (c.push m.transcript.toList).2) := by
      simp [textItems, IncomingText.isFlush, hm]
    simp only [textRun, hitems]
    rw [ih _ fun m' hm' => hopen m' (List.mem_cons_of_mem _ hm')]
    simp [pushes, TextCoalescer.calls, TextCoalescer.call]

/-- The last frame pushes, flushes and puts EOF. A flush frame does not push, but its
transcript is empty and the buffer free of boundaries. -/
theorem textItems_final {c : TextCoalescer} (hfree : c.BoundaryFree) {m : IncomingText}
    (hm : m.continue_ = false) :
    textItems c m =
      ((c.calls [.push m.transcript.toList, .flush]).1.map some ++ [none],
        (c.calls [.push m.transcript.toList, .flush]).2) := by
  by_cases hflush : m.transcript = ""
  · -- the push that is left out would have returned nothing
    have hpush : c.push m.transcript.toList = ([], c) := by
      rw [hflush]
      exact Coalescer.push_nil hfree
    simp [textItems, IncomingText.isFlush, hm, hflush, TextCoalescer.calls, TextCoalescer.call,
      Coalescer.push_nil hfree]
  · simp [textItems, IncomingText.isFlush, hm, hflush, TextCoalescer.calls, TextCoalescer.call]

/-- **The queue up to its first EOF** is the chunks of a coalescer that was pushed once for
each frame up to the first with `continue=False` and then flushed. -/
theorem textRun_first_final {pre : List IncomingText} {m : IncomingText}
    (post : List IncomingText) (hpre : ∀ x ∈ pre, x.continue_ = true) (hm : m.continue_ = false) :
    ∃ q, (textRun TextCoalescer.fresh (pre ++ m :: post)).1 =
      (spokenChunks (pre ++ [m])).map some ++ none :: q := by
  -- between two frames the buffer holds no boundary, which the flush path relies on
  have hfree := Coalescer.calls_boundaryFree Coalescer.fresh_boundaryFree (pushes pre)
  rw [textRun_append, textRun_open _ hpre]
  simp only [textRun]
  rw [textItems_final hfree hm]
  have hchunks : spokenChunks (pre ++ [m]) =
      (TextCoalescer.fresh.calls (pushes pre)).1 ++
        ((TextCoalescer.fresh.calls (pushes pre)).2.calls
          [.push m.transcript.toList, .flush]).1 := by
    unfold spokenChunks
    rw [show pushes (pre ++ [m]) ++ [.flush] =
      pushes pre ++ [.push m.transcript.toList, .flush] by simp [pushes], Coalescer.calls_append]
  rw [hchunks]
  simp only [List.map_append, List.append_assoc, List.singleton_append]
  exact ⟨_, rfl⟩

/-! ## The invariant -/

/-- What the history says about the coalescer, the queue, the voice and the rate. -/
structure Heard (v : View F) : Prop where
  coalescer : v.ctx.coalescer = (textRun TextCoalescer.fresh (texts v.trace)).2
  queued : ¬ Stopped v.ctx.contextId v.trace →
    puts v.trace = (textRun TextCoalescer.fresh (texts v.trace)).1
  first : ∃ m, (texts v.trace).head? = some m ∧ v.ctx.voiceId = m.voice.id ∧
    v.ctx.outputSr = m.outputFormat.sampleRate

section Preservation

variable {ops : AudioOps F} {Res : Chunk → String → Outcome F → Prop} {sid : Nat}
  {v v' : View F}

theorem read_of_ofTask {evs : List (Event F)} (h : ∀ e ∈ evs, e.OfTask) :
    texts evs = [] ∧ puts evs = [] := by
  induction evs with
  | nil => exact ⟨rfl, rfl⟩
  | cons e evs ih =>
    obtain ⟨htexts, hputs⟩ := ih fun e' he' => h e' (List.mem_cons_of_mem _ he')
    have he := h e List.mem_cons_self
    rw [texts_cons, puts_cons, htexts, hputs]
    cases e <;> first | exact ⟨rfl, rfl⟩ | exact absurd he id

theorem born_heard (msg : IncomingText) : Heard (View.born F msg) := by
  obtain ⟨hputs, -, -, htexts⟩ := textEvents_read (F := F) (makeContext msg) msg
  refine ⟨?_, fun _ => ?_, msg, ?_, rfl, rfl⟩
  · show (textItems TextCoalescer.fresh msg).2 = _
    rw [show texts (View.born F msg).trace = [msg] from htexts]
    rfl
  · rw [show texts (View.born F msg).trace = [msg] from htexts,
      show puts (View.born F msg).trace = (textItems TextCoalescer.fresh msg).1 from hputs]
    simp [textRun]
  · rw [show texts (View.born F msg).trace = [msg] from htexts]
    rfl

theorem Life.heard (hlife : Life ops Res sid v v') (h : Heard v) : Heard v' := by
  obtain ⟨first, hhead, hvoice, hrate⟩ := h.first
  have hhead_append : ∀ ms, (texts v.trace ++ ms).head? = some first := by
    intro ms
    rw [List.head?_append, hhead]
    rfl
  cases hlife with
  | text msg hid =>
    obtain ⟨hputs, -, -, htexts⟩ := textEvents_read (F := F) v.ctx msg
    refine ⟨?_, fun hno => ?_, first, ?_, hvoice, hrate⟩
    · show (textItems v.ctx.coalescer msg).2 = _
      rw [texts_append, htexts, textRun_append, h.coalescer]
      rfl
    · have hold := h.queued fun hstop => hno (stopped_append.mpr (Or.inl hstop))
      rw [puts_append, texts_append, htexts, hputs, textRun_append, hold, h.coalescer]
      simp [textRun]
    · rw [texts_append]
      exact hhead_append _
  | cancel =>
    refine ⟨?_, fun hno => ?_, first, ?_, hvoice, hrate⟩
    · simpa using h.coalescer
    · exact absurd (Or.inl (by simp)) hno
    · rw [texts_append]
      exact hhead_append _
  | closing =>
    refine ⟨?_, fun hno => ?_, first, ?_, hvoice, hrate⟩
    · simpa using h.coalescer
    · exact absurd (Or.inr (by simp)) hno
    · rw [texts_append]
      exact hhead_append _
  | task eff htask =>
    obtain ⟨q, pc, heff⟩ := htask.keeps
    obtain ⟨htexts, hputs⟩ := read_of_ofTask htask.ofTask
    have htr : texts (v.after eff).trace = texts v.trace := by
      show texts (v.trace ++ eff.events) = _
      rw [texts_append, htexts, List.append_nil]
    have hpr : puts (v.after eff).trace = puts v.trace := by
      show puts (v.trace ++ eff.events) = _
      rw [puts_append, hputs, List.append_nil]
    refine ⟨?_, fun hno => ?_, first, ?_, ?_, ?_⟩
    · show eff.ctx.coalescer = _
      rw [heff, htr]
      exact h.coalescer
    · rw [hpr, htr]
      refine h.queued fun hstop => hno ?_
      show Stopped eff.ctx.contextId (v.trace ++ eff.events)
      rw [heff]
      exact stopped_append.mpr (Or.inl hstop)
    · rw [htr]
      exact hhead
    · show eff.ctx.voiceId = _
      rw [heff]
      exact hvoice
    · show eff.ctx.outputSr = _
      rw [heff]
      exact hrate

theorem Lives.heard (h : Lives ops Res sid v) : Heard v := by
  induction h with
  | born msg => exact born_heard msg
  | step _ hlife ih => exact hlife.heard ih

/-! ## What comes back from the worker -/

theorem TaskStep.syntheses {flag : Bool} {closing : Prop} {ctx : Context} {eff : Effect F}
    (h : TaskStep ops Res sid flag closing ctx eff) :
    ∀ x ∈ syntheses eff.events, Res x.1 ctx.voiceId x.2 := by
  cases h with
  | shipped chunk result frames hemit hres =>
    intro x hx
    obtain ⟨e, he, hxe⟩ := List.mem_filterMap.mp hx
    rcases mem_ship_events he with he | ⟨_, _, _, rfl⟩
    · rw [List.mem_singleton.mp he] at hxe
      cases hxe
      exact hres
    · exact absurd hxe (by simp)
  | chunkSent pcm rest hemit =>
    intro x hx
    obtain ⟨e, he, hxe⟩ := List.mem_filterMap.mp hx
    rcases mem_ship_events he with he | ⟨_, _, _, rfl⟩
    · rw [List.mem_singleton.mp he] at hxe
      exact absurd hxe (by simp)
    · exact absurd hxe (by simp)
  | killedInSend pcm rest hclosing hemit out => cases out <;> simp [Context.finish, Event.sendEnded]
  | synthFailed chunk message hemit hres | synthDropped chunk message hemit hres
  | pipelineFailed chunk result message hemit hres =>
    simpa [Context.crash] using hres
  | _ => simp [Context.finish, Context.crash]

/-- Every synthesis of a context came back as the worker may answer for its voice. -/
theorem Lives.syntheses (h : Lives ops Res sid v) :
    ∀ x ∈ syntheses v.trace, Res x.1 v.ctx.voiceId x.2 := by
  induction h with
  | born msg =>
    intro x hx
    have hnone := (textEvents_read (F := F) (makeContext msg) msg).2.1
    rw [show (View.born F msg).trace = textEvents (makeContext msg) msg from rfl, hnone] at hx
    exact absurd hx List.not_mem_nil
  | step _ hlife ih =>
    rw [hlife.keeps.2.1]
    intro x hx
    cases hlife with
    | text msg hid =>
      rw [syntheses_append, (textEvents_read _ msg).2.1, List.append_nil] at hx
      exact ih x hx
    | cancel =>
      refine ih x ?_
      simpa using hx
    | closing =>
      refine ih x ?_
      simpa using hx
    | task eff htask =>
      rw [View.after, syntheses_append] at hx
      exact (List.mem_append.mp hx).elim (ih x) (htask.syntheses x)

end Preservation

end SupertonicServer
