import Mathlib.Data.List.ReduceOption
import SupertonicServer.Session.Heard

/-!
# Where the text of a context is

At any moment of its life, as long as nobody stops it, the text a context was sent is in four
places and nowhere else: with the worker or back from it, in the queue, and in the buffer of
its coalescer. The ledger of `Story.lean` keeps books of what was shipped and gives up when
something fails; the account here is of the text alone, and a failed synthesis or a failed
send does not upset it (`Lives.account`).

`context_stats` reports the sizes of two of these places.
-/

namespace SupertonicServer

open Coalescer (Chunk TextCoalescer)
open Wire (Bytes IncomingText encodeChunk)
open Audio (AudioOps)
open Pool

variable {F : Type}

/-- An entry of `context_stats`, without its clock. -/
structure ContextStats where
  contextId : String
  voiceId : String
  pendingChars : Nat
  queueDepth : Nat
  finished : Bool
deriving DecidableEq

def Context.stats (ctx : Context) : ContextStats :=
  { contextId := ctx.contextId
    voiceId := ctx.voiceId
    pendingChars := ctx.coalescer.pendingChars
    queueDepth := ctx.queue.length
    finished := ctx.emit = .finished }

/-- `context_stats`. -/
def Session.contextStats (s : Session F) : List ContextStats :=
  s.contexts.filterMap fun c => (s.objs c).map Context.stats

/-! ## Text and queue items -/

/-- The text of some queue items. -/
def itemsText (items : List (Option Chunk)) : List Char := items.reduceOption.flatten

@[simp] theorem itemsText_append (items items' : List (Option Chunk)) :
    itemsText (items ++ items') = itemsText items ++ itemsText items' := by
  simp [itemsText, List.reduceOption_append]

@[simp] theorem itemsText_chunks (chunks : List Chunk) :
    itemsText (chunks.map some) = chunks.flatten := by
  simp [itemsText, List.reduceOption]

@[simp] theorem itemsText_eof : itemsText [none] = [] := rfl

/-- A text frame moves its transcript into the queue, but for what stays in the buffer. -/
theorem textItems_text (c : TextCoalescer) (m : IncomingText) :
    itemsText (textItems c m).1 ++ (textItems c m).2.buf = c.buf ++ m.transcript.toList := by
  unfold textItems
  split
  next hflush =>
    have hempty : m.transcript = "" := by
      simp only [IncomingText.isFlush, Bool.and_eq_true, beq_iff_eq] at hflush
      exact hflush.1
    dsimp only
    rw [itemsText_append, itemsText_chunks, itemsText_eof, Coalescer.flush_flatten,
      Coalescer.flush_buf, hempty]
    simp
  next =>
    have hpush := Coalescer.push_flatten c m.transcript.toList
    dsimp only
    split
    next =>
      rw [itemsText_chunks]
      exact hpush
    next =>
      rw [itemsText_append, itemsText_append, itemsText_chunks, itemsText_chunks, itemsText_eof,
        Coalescer.flush_flatten, Coalescer.flush_buf, List.append_nil, List.append_nil]
      exact hpush

theorem textRun_text (c : TextCoalescer) (ms : List IncomingText) :
    itemsText (textRun c ms).1 ++ (textRun c ms).2.buf = c.buf ++ transcripts ms := by
  induction ms generalizing c with
  | nil => simp [textRun, itemsText, List.reduceOption, transcripts]
  | cons m ms ih =>
    rw [textRun, itemsText_append, List.append_assoc, ih, ← List.append_assoc, textItems_text]
    simp [transcripts]

/-! ## The account -/

/-- The chunks that have been to the worker. -/
def voiced (tr : List (Event F)) : List Chunk := (syntheses tr).map Prod.fst

@[simp] theorem voiced_nil : voiced ([] : List (Event F)) = [] := rfl

@[simp] theorem voiced_append (tr evs : List (Event F)) :
    voiced (tr ++ evs) = voiced tr ++ voiced evs := by
  simp [voiced]

/-- What was put into the queue has been to the worker or is pending, but for the EOF the task
has left its loop at. -/
inductive Account (v : View F) : Prop where
  | inLoop (hitems : puts v.trace = (voiced v.trace).map some ++ v.ctx.pending)
  | pastEof (hemit : v.ctx.emit.PastLoop)
      (hitems : puts v.trace = (voiced v.trace).map some ++ none :: v.ctx.pending)

section Preservation

variable {ops : AudioOps F} {Res : Chunk → String → Outcome F → Prop} {sid : Nat}
  {v v' : View F}

/-- Nothing has moved: what is new in the history puts and voices nothing. -/
theorem Account.quiet (h : Account v) {evs : List (Event F)} (htrace : v'.trace = v.trace ++ evs)
    (hputs : puts evs = []) (hvoiced : voiced evs = []) (hpending : v'.ctx.pending = v.ctx.pending)
    (hemit : v.ctx.emit.PastLoop → v'.ctx.emit.PastLoop) : Account v' := by
  have hputs' : puts v'.trace = puts v.trace := by
    rw [htrace, puts_append, hputs, List.append_nil]
  have hvoiced' : voiced v'.trace = voiced v.trace := by
    rw [htrace, voiced_append, hvoiced, List.append_nil]
  cases h with
  | inLoop hitems =>
    refine .inLoop ?_
    rw [hputs', hvoiced', hpending]
    exact hitems
  | pastEof hpast hitems =>
    refine .pastEof (hemit hpast) ?_
    rw [hputs', hvoiced', hpending]
    exact hitems

/-- In the loop the account is that of the loop. -/
theorem Account.items (h : Account v) (hemit : ¬ v.ctx.emit.PastLoop) :
    puts v.trace = (voiced v.trace).map some ++ v.ctx.pending := by
  cases h with
  | inLoop hitems => exact hitems
  | pastEof hpast => exact absurd hpast hemit

/-- The chunk at the worker has come back. -/
theorem Account.back (h : Account v) {evs : List (Event F)} {chunk : Chunk}
    (htrace : v'.trace = v.trace ++ evs) (hputs : puts evs = []) (hvoiced : voiced evs = [chunk])
    (hemit : v.ctx.emit = .inSynth chunk) (hpending : v'.ctx.pending = v.ctx.queue) :
    Account v' := by
  have hitems := h.items (by simp [hemit, EmitPc.PastLoop])
  refine .inLoop ?_
  rw [htrace, puts_append, hputs, List.append_nil, hitems, voiced_append, hvoiced, hpending]
  simp [Context.pending, hemit]

theorem born_account (msg : IncomingText) : Account (View.born F msg) := by
  obtain ⟨hputs, hsyn, -, -⟩ := textEvents_read (F := F) (makeContext msg) msg
  refine .inLoop ?_
  show puts (textEvents (makeContext msg) msg) = (voiced (textEvents (makeContext msg) msg)).map
    some ++ (textItems (makeContext msg).coalescer msg).1
  rw [hputs, voiced, hsyn]
  rfl

/-- Text goes to the end of the queue. -/
theorem Account.text (h : Account v) (msg : IncomingText) :
    Account { v with ctx := v.ctx.onText msg, trace := v.trace ++ textEvents v.ctx msg } := by
  obtain ⟨hputs, hsyn, -, -⟩ := textEvents_read (F := F) v.ctx msg
  have hvoiced : voiced (textEvents (F := F) v.ctx msg) = [] := by
    rw [voiced, hsyn]
    rfl
  have hpending : (v.ctx.onText msg).pending =
      v.ctx.pending ++ (textItems v.ctx.coalescer msg).1 := by
    unfold Context.pending Context.onText
    cases v.ctx.emit <;> rfl
  cases h with
  | inLoop hitems =>
    refine .inLoop ?_
    dsimp only
    rw [puts_append, hputs, voiced_append, hvoiced, List.append_nil, hpending, hitems,
      List.append_assoc]
  | pastEof hpast hitems =>
    refine .pastEof hpast ?_
    dsimp only
    rw [puts_append, hputs, voiced_append, hvoiced, List.append_nil, hpending, hitems,
      List.append_assoc, List.cons_append]

/-- Shipping moves no text. -/
theorem ship_account (flag : Bool) (ctx : Context) (frames : List Bytes)
    (events : List (Event F)) (calls : List PoolCall) :
    puts (ctx.ship flag frames events calls).events = puts events ∧
      voiced (ctx.ship flag frames events calls).events = voiced events ∧
      (ctx.ship flag frames events calls).ctx.pending = ctx.queue ∧
      ¬ (ctx.ship flag frames events calls).ctx.emit.PastLoop := by
  unfold Context.ship
  split
  next => exact ⟨rfl, rfl, rfl, id⟩
  next =>
    split
    next => exact ⟨rfl, rfl, rfl, id⟩
    next => exact ⟨by simp, by simp [voiced], rfl, id⟩

/-- **A step of the task moves a chunk from one place to the next**, unless somebody has
stopped the context. -/
theorem Account.task (h : Account v) (hflag : v.flag = false)
    (hclosing : .closing v.ctx.contextId ∉ v.trace) {eff : Effect F}
    (htask : TaskStep ops Res sid v.flag (.closing v.ctx.contextId ∈ v.trace) v.ctx eff) :
    Account (v.after eff) := by
  cases htask with
  | start hemit =>
    exact h.quiet rfl rfl rfl (by simp [View.after, Context.pending, hemit])
      (by simp [hemit, EmitPc.PastLoop])
  | eofDropped q hemit hqueue hflag' | dropped chunk q hemit hqueue hflag'
  | synthDropped chunk result hemit hres hflag' =>
    exact absurd hflag' (by simp [hflag])
  | eof q hemit hqueue =>
    have hitems := h.items (by simp [hemit, EmitPc.PastLoop])
    refine .pastEof trivial ?_
    simp only [View.after, puts_append, voiced_append, hitems]
    simp [Context.pending, hemit, hqueue, voiced]
  | submitted chunk q hemit hqueue =>
    exact h.quiet rfl rfl rfl (by simp [View.after, Context.pending, hemit, hqueue])
      (by simp [hemit, EmitPc.PastLoop])
  | synthFailed chunk message hemit | pipelineFailed chunk result message hemit =>
    exact h.back rfl (by simp [Context.crash]) (by simp [Context.crash, voiced]) hemit rfl
  | shipped chunk result frames hemit =>
    obtain ⟨hputs, hvoiced, hpending, -⟩ := ship_account v.flag v.ctx frames
      [.synthesized v.ctx.contextId chunk (.ok result)] [.collect ⟨sid, v.ctx.contextId⟩]
    exact h.back rfl (by rw [hputs]; rfl) (by rw [hvoiced]; rfl) hemit hpending
  | chunkSent pcm rest hemit =>
    obtain ⟨hputs, hvoiced, hpending, -⟩ := ship_account (F := F) v.flag v.ctx rest
      [.delivered (encodeChunk v.ctx.contextId pcm)] []
    refine h.quiet rfl (by rw [hputs]; rfl) (by rw [hvoiced]; rfl) ?_
      (by simp [hemit, EmitPc.PastLoop])
    rw [View.after, hpending]
    simp [Context.pending, hemit]
  | chunkFailed pcm rest message hemit =>
    exact h.quiet rfl (by simp [Context.crash]) (by simp [Context.crash, voiced])
      (by simp [View.after, Context.pending, Context.crash, hemit])
      (fun _ => trivial)
  | doneSent hemit | errorSent message hemit | errorFailed message hemit =>
    exact h.quiet rfl rfl rfl (by simp [View.after, Context.pending, Context.finish, hemit])
      (fun _ => trivial)
  | doneFailed message hemit =>
    exact h.quiet rfl (by simp [Context.crash]) (by simp [Context.crash, voiced])
      (by simp [View.after, Context.pending, Context.crash, hemit])
      (fun _ => trivial)
  | killedAtGet hclosing' | killedInSynth chunk hclosing' | killedInSend pcm rest hclosing'
  | killedInDone hclosing' =>
    exact absurd hclosing' hclosing

/-- A context that nobody has stopped is accounted for. -/
theorem Lives.account (h : Lives ops Res sid v) (hstop : ¬ Stopped v.ctx.contextId v.trace) :
    Account v := by
  induction h with
  | born msg => exact born_account msg
  | @step v v' hlives hlife ih =>
    rw [hlife.keeps.1] at hstop
    cases hlife with
    | text msg hid => exact (ih fun h => hstop (stopped_append.mpr (Or.inl h))).text msg
    | cancel => exact absurd (Or.inl (by simp)) hstop
    | closing => exact absurd (Or.inr (by simp)) hstop
    | task eff htask =>
      have hbefore : ¬ Stopped v.ctx.contextId v.trace :=
        fun h => hstop (stopped_append.mpr (Or.inl h))
      have hflag : v.flag = false := by
        rw [← Bool.not_eq_true, hlives.flag_iff htask.live]
        exact hbefore
      exact (ih hbefore).task hflag (fun h => hbefore (Or.inr h)) htask

/-- **The text of a context**, as long as nobody stops it, has been to the worker, is pending
or is still in the buffer. -/
theorem Lives.text_account (h : Lives ops Res sid v)
    (hstop : ¬ Stopped v.ctx.contextId v.trace) :
    transcripts (texts v.trace) =
      (voiced v.trace).flatten ++ itemsText v.ctx.pending ++ v.ctx.coalescer.buf := by
  have hheard := h.heard
  have htext := textRun_text TextCoalescer.fresh (texts v.trace)
  rw [← hheard.queued hstop, ← hheard.coalescer] at htext
  rw [show transcripts (texts v.trace) = TextCoalescer.fresh.buf ++ transcripts (texts v.trace)
    from rfl, ← htext]
  cases h.account hstop with
  | inLoop hitems => rw [hitems, itemsText_append, itemsText_chunks]
  | pastEof _ hitems =>
    rw [hitems, itemsText_append, itemsText_chunks]
    rfl

/-- Chunks ahead of an EOF. -/
theorem prefix_of_map_some {xs ys : List Chunk} {rest q : List (Option Chunk)}
    (h : xs.map some ++ rest = ys.map some ++ none :: q) : xs <+: ys := by
  induction xs generalizing ys with
  | nil => exact List.nil_prefix
  | cons x xs ih =>
    cases ys with
    | nil => exact absurd (List.cons.inj h).1 (by simp)
    | cons y ys =>
      obtain ⟨hxy, hrest⟩ := List.cons.inj h
      exact List.cons_prefix_cons.mpr ⟨Option.some.inj hxy, ih hrest⟩

/-- The worker is asked for the chunks of the utterance, in order, and for nothing behind the
first final frame. -/
theorem Lives.voiced_prefix (h : Lives ops Res sid v) (hstop : ¬ Stopped v.ctx.contextId v.trace)
    {pre post : List IncomingText} {m : IncomingText} (htexts : texts v.trace = pre ++ m :: post)
    (hpre : ∀ x ∈ pre, x.continue_ = true) (hm : m.continue_ = false) :
    voiced v.trace <+: spokenChunks (pre ++ [m]) := by
  obtain ⟨q, hq⟩ := textRun_first_final post hpre hm
  rw [← htexts, ← h.heard.queued hstop] at hq
  cases h.account hstop with
  | inLoop hitems => exact prefix_of_map_some (hitems.symm.trans hq)
  | pastEof _ hitems => exact prefix_of_map_some (hitems.symm.trans hq)

end Preservation

end SupertonicServer
