import SupertonicServer.Session.Life

/-!
# What an emit task has done so far

The history of a context is compared with its queue. As long as nothing excuses the task (a
cancel, a failed synthesis, a failed send, the close of the session), everything ever put
into the queue is either shipped or still pending, in order, and the frames delivered are
those of the shipped results less the ones still to be sent. A task that ends says `done` only
at the first EOF, with everything ahead of it shipped.

A `Shipment` carries the proof that its frames are what `pipeline` made of its result.
-/

namespace SupertonicServer

open Coalescer (Chunk)
open Wire (Bytes IncomingText ServerFrame encodeChunk encodeDone encodeError)
open Audio (AudioOps SynthResult pipeline)
open Pool

variable {F : Type}

/-! ## Reading a history -/

@[simp] def Event.put? : Event F → Option (Option Chunk)
  | .put _ item => some item
  | _ => none

@[simp] def Event.synthesized? : Event F → Option (Chunk × Outcome F)
  | .synthesized _ chunk outcome => some (chunk, outcome)
  | _ => none

@[simp] def Event.delivered? : Event F → Option ServerFrame
  | .delivered frame => some frame
  | _ => none

@[simp] def Event.text? : Event F → Option IncomingText
  | .textHandled msg => some msg
  | _ => none

/-- What was put into the queue. -/
def puts (tr : List (Event F)) : List (Option Chunk) := tr.filterMap Event.put?

/-- The chunks handed to the worker that came back, with what came back. -/
def syntheses (tr : List (Event F)) : List (Chunk × Outcome F) := tr.filterMap Event.synthesized?

/-- The frames that reached the client. -/
def deliveries (tr : List (Event F)) : List ServerFrame := tr.filterMap Event.delivered?

/-- The text frames handled. -/
def texts (tr : List (Event F)) : List IncomingText := tr.filterMap Event.text?

theorem filterMap_cons_toList {α β : Type} (f : α → Option β) (a : α) (l : List α) :
    (a :: l).filterMap f = (f a).toList ++ l.filterMap f := by
  cases h : f a <;> simp [h]

@[simp] theorem puts_nil : puts ([] : List (Event F)) = [] := rfl

@[simp] theorem syntheses_nil : syntheses ([] : List (Event F)) = [] := rfl

@[simp] theorem deliveries_nil : deliveries ([] : List (Event F)) = [] := rfl

@[simp] theorem texts_nil : texts ([] : List (Event F)) = [] := rfl

@[simp] theorem puts_cons (e : Event F) (tr : List (Event F)) :
    puts (e :: tr) = e.put?.toList ++ puts tr :=
  filterMap_cons_toList ..

@[simp] theorem syntheses_cons (e : Event F) (tr : List (Event F)) :
    syntheses (e :: tr) = e.synthesized?.toList ++ syntheses tr :=
  filterMap_cons_toList ..

@[simp] theorem deliveries_cons (e : Event F) (tr : List (Event F)) :
    deliveries (e :: tr) = e.delivered?.toList ++ deliveries tr :=
  filterMap_cons_toList ..

@[simp] theorem texts_cons (e : Event F) (tr : List (Event F)) :
    texts (e :: tr) = e.text?.toList ++ texts tr :=
  filterMap_cons_toList ..

@[simp] theorem puts_append (tr evs : List (Event F)) : puts (tr ++ evs) = puts tr ++ puts evs :=
  List.filterMap_append ..

@[simp] theorem syntheses_append (tr evs : List (Event F)) :
    syntheses (tr ++ evs) = syntheses tr ++ syntheses evs :=
  List.filterMap_append ..

@[simp] theorem deliveries_append (tr evs : List (Event F)) :
    deliveries (tr ++ evs) = deliveries tr ++ deliveries evs :=
  List.filterMap_append ..

@[simp] theorem texts_append (tr evs : List (Event F)) :
    texts (tr ++ evs) = texts tr ++ texts evs :=
  List.filterMap_append ..

/-- Handling a text frame only puts chunks into the queue. -/
theorem textEvents_read (ctx : Context) (msg : IncomingText) :
    puts (textEvents (F := F) ctx msg) = (textItems ctx.coalescer msg).1 ∧
      syntheses (textEvents (F := F) ctx msg) = [] ∧
      deliveries (textEvents (F := F) ctx msg) = [] ∧
      texts (textEvents (F := F) ctx msg) = [msg] := by
  have hall : ∀ items : List (Option Chunk),
      puts (items.map (Event.put (F := F) msg.contextId)) = items ∧
      syntheses (items.map (Event.put (F := F) msg.contextId)) = [] ∧
      deliveries (items.map (Event.put (F := F) msg.contextId)) = [] ∧
      texts (items.map (Event.put (F := F) msg.contextId)) = [] := by
    intro items
    induction items with
    | nil => exact ⟨rfl, rfl, rfl, rfl⟩
    | cons item items ih => simpa using ih
  simpa [textEvents] using hall (textItems ctx.coalescer msg).1

/-! ## The ledger -/

/-- A result that was turned into frames. -/
structure Shipment (ops : AudioOps F) (sr : Int) where
  chunk : Chunk
  result : SynthResult F
  frames : List Bytes
  ok : pipeline ops result.wavF32 result.sampleRate sr = .ok frames

variable {ops : AudioOps F} {sr : Int}

def Shipment.record (s : Shipment ops sr) : Chunk × Outcome F := (s.chunk, .ok s.result)

/-- The chunk frames of a shipment. -/
def Shipment.sent (c : String) (s : Shipment ops sr) : List ServerFrame :=
  s.frames.map (encodeChunk c)

/-- Put into the queue and not yet shipped. -/
def Context.pending (ctx : Context) : List (Option Chunk) :=
  match ctx.emit with
  | .inSynth chunk => some chunk :: ctx.queue
  | _ => ctx.queue

/-- Frames of the last result that are still to reach the client. -/
def Context.unsent (ctx : Context) : List ServerFrame :=
  match ctx.emit with
  | .inSend pcm rest => (pcm :: rest).map (encodeChunk ctx.contextId)
  | _ => []

/-- The history is that of the shipments `R`, with `pending` behind them in the queue,
`failed` after them at the worker, and `unsent` missing from their frames. -/
structure Ledger (c : String) (tr : List (Event F)) (R : List (Shipment ops sr))
    (pending : List (Option Chunk)) (failed : List (Chunk × Outcome F))
    (unsent : List ServerFrame) : Prop where
  queued : puts tr = R.map (fun s => some s.chunk) ++ pending
  synthesized : syntheses tr = R.map Shipment.record ++ failed
  delivered : deliveries tr ++ unsent = R.flatMap (Shipment.sent c)

/-- Something outside the context's own control went wrong, or somebody cancelled it. -/
def Event.Excuses : Event F → Prop
  | .sendFailed _ => True
  | .synthesized _ _ (.error _) => True
  | .cancelHandled _ => True
  | .closing _ => True
  | _ => False

def Excused (tr : List (Event F)) : Prop := ∃ e ∈ tr, e.Excuses

theorem Excused.append {tr : List (Event F)} (h : Excused tr) (evs : List (Event F)) :
    Excused (tr ++ evs) := by
  obtain ⟨e, he, hex⟩ := h
  exact ⟨e, List.mem_append_left _ he, hex⟩

theorem Stopped.excused {c : String} {tr : List (Event F)} (h : Stopped c tr) : Excused tr := by
  rcases h with hmem | hmem
  · exact ⟨_, hmem, trivial⟩
  · exact ⟨_, hmem, trivial⟩

/-- The frame is a chunk of `c`. -/
def IsChunk (c : String) (f : ServerFrame) : Prop := ∃ pcm, f = encodeChunk c pcm

@[simp] theorem isChunk_encodeChunk (c : String) (pcm : Bytes) : IsChunk c (encodeChunk c pcm) :=
  ⟨pcm, rfl⟩

/-- The audio of the last result could not be turned into frames, for the reason `message`. -/
def Broken (ops : AudioOps F) (sr : Int) (c : String) (tr : List (Event F))
    (message : String) (unsent : List ServerFrame) : Prop :=
  ∃ (R : List (Shipment ops sr)) (chunk : Chunk) (result : SynthResult F)
    (q : List (Option Chunk)),
    pipeline ops result.wavF32 result.sampleRate sr = .error message ∧
    puts tr = R.map (fun s => some s.chunk) ++ some chunk :: q ∧
    syntheses tr = R.map Shipment.record ++ [(chunk, .ok result)] ∧
    deliveries tr = R.flatMap (Shipment.sent c) ++ unsent

/-- Where the task is, and what it has done. -/
inductive Story (ops : AudioOps F) (c : String) (sr : Int) (v : View F) : Prop where
  /-- in the loop: every delivered frame is a chunk, and the ledger is in order -/
  | looping (hemit : ¬ v.ctx.emit.PastLoop)
      (hchunks : ∀ f ∈ deliveries v.trace, IsChunk c f)
      (hledger : v.flag = false →
        ∃ R : List (Shipment ops sr), Ledger c v.trace R v.ctx.pending [] v.ctx.unsent)
  /-- the first EOF was taken with the ledger in order, and `done` is on its way -/
  | sayingDone (hemit : v.ctx.emit = .inDone) (R : List (Shipment ops sr))
      (q : List (Option Chunk)) (hledger : Ledger c v.trace R (none :: q) [] [])
  /-- an error frame is on its way -/
  | sayingError (message : String) (hemit : v.ctx.emit = .inError message)
      (hchunks : ∀ f ∈ deliveries v.trace, IsChunk c f)
      (hwhy : Excused v.trace ∨ Broken ops sr c v.trace message [])
  /-- `done` was delivered -/
  | answered (hemit : v.ctx.emit = .finished) (R : List (Shipment ops sr))
      (q : List (Option Chunk))
      (hputs : puts v.trace = R.map (fun s => some s.chunk) ++ none :: q)
      (hsyntheses : syntheses v.trace = R.map Shipment.record)
      (hdeliveries : deliveries v.trace = R.flatMap (Shipment.sent c) ++ [encodeDone c])
  /-- it ended without `done` -/
  | gaveUp (hemit : v.ctx.emit = .finished) (chunks last : List ServerFrame)
      (hdeliveries : deliveries v.trace = chunks ++ last) (hchunks : ∀ f ∈ chunks, IsChunk c f)
      (hlast : last = [] ∨ ∃ message, last = [encodeError (some c) message])
      (hwhy : Excused v.trace ∨ ∃ message,
        Broken ops sr c v.trace message [encodeError (some c) s!"server: {message}"])

/-! ## The story goes on -/

section Preservation

variable {c : String} {v v' : View F} {Res : Chunk → String → Outcome F → Prop} {sid : Nat}

theorem Story.inLoop (h : Story ops c sr v) (hemit : ¬ v.ctx.emit.PastLoop) :
    (∀ f ∈ deliveries v.trace, IsChunk c f) ∧ (v.flag = false →
      ∃ R : List (Shipment ops sr), Ledger c v.trace R v.ctx.pending [] v.ctx.unsent) := by
  cases h with
  | looping _ hchunks hledger => exact ⟨hchunks, hledger⟩
  | sayingDone hpc | sayingError _ hpc | answered hpc | gaveUp hpc =>
    rw [hpc] at hemit
    exact absurd trivial hemit

theorem Story.atDone (h : Story ops c sr v) (hemit : v.ctx.emit = .inDone) :
    ∃ (R : List (Shipment ops sr)) (q : List (Option Chunk)),
      Ledger c v.trace R (none :: q) [] [] := by
  cases h with
  | sayingDone _ R q hledger => exact ⟨R, q, hledger⟩
  | looping hpc =>
    rw [hemit] at hpc
    exact absurd trivial hpc
  | sayingError _ hpc | answered hpc | gaveUp hpc =>
    rw [hemit] at hpc
    exact absurd hpc (by simp)

theorem Story.atError (h : Story ops c sr v) {message : String}
    (hemit : v.ctx.emit = .inError message) :
    (∀ f ∈ deliveries v.trace, IsChunk c f) ∧
      (Excused v.trace ∨ Broken ops sr c v.trace message []) := by
  cases h with
  | sayingError m hpc hchunks hwhy =>
    obtain rfl : m = message := EmitPc.inError.inj (hpc.symm.trans hemit)
    exact ⟨hchunks, hwhy⟩
  | looping hpc =>
    rw [hemit] at hpc
    exact absurd trivial hpc
  | sayingDone hpc | answered hpc | gaveUp hpc =>
    rw [hemit] at hpc
    exact absurd hpc (by simp)

/-- With nothing left to send, every frame of the ledger is a chunk. -/
theorem Ledger.chunks {tr : List (Event F)} {R : List (Shipment ops sr)}
    {q : List (Option Chunk)} {failed : List (Chunk × Outcome F)}
    (h : Ledger c tr R q failed []) : ∀ f ∈ deliveries tr, IsChunk c f := by
  intro f hf
  have hdel := h.delivered
  rw [List.append_nil] at hdel
  rw [hdel] at hf
  obtain ⟨s, -, hs⟩ := List.mem_flatMap.mp hf
  obtain ⟨pcm, -, rfl⟩ := List.mem_map.mp hs
  exact ⟨pcm, rfl⟩

/-- The receive loop or `close` puts something into the queue, or throws it away under the
flag. -/
theorem Story.enqueue (h : Story ops c sr v) {items : List (Option Chunk)}
    (hemit : v'.ctx.emit = v.ctx.emit) (hid : v'.ctx.contextId = v.ctx.contextId)
    (hqueue : v'.flag = false → v.flag = false ∧ v'.ctx.queue = v.ctx.queue ++ items)
    (hputs : puts v'.trace = puts v.trace ++ items)
    (hsyntheses : syntheses v'.trace = syntheses v.trace)
    (hdeliveries : deliveries v'.trace = deliveries v.trace)
    (hexcused : Excused v.trace → Excused v'.trace) : Story ops c sr v' := by
  -- what comes into the queue later stands behind the chunk that broke
  have hbroken : ∀ message unsent, Broken ops sr c v.trace message unsent →
      Broken ops sr c v'.trace message unsent := by
    intro message unsent hb
    obtain ⟨R, chunk, result, q, hpipe, hp, hs, hd⟩ := hb
    refine ⟨R, chunk, result, q ++ items, hpipe, ?_, hsyntheses.trans hs, hdeliveries.trans hd⟩
    rw [hputs, hp]
    simp
  cases h with
  | looping hpc hchunks hledger =>
    refine .looping (by rwa [hemit]) (by rwa [hdeliveries]) fun hflag => ?_
    obtain ⟨hflag, hq⟩ := hqueue hflag
    obtain ⟨R, hl⟩ := hledger hflag
    have hpending : v'.ctx.pending = v.ctx.pending ++ items := by
      unfold Context.pending
      rw [hemit, hq]
      split <;> rfl
    have hunsent : v'.ctx.unsent = v.ctx.unsent := by
      unfold Context.unsent
      rw [hemit, hid]
    refine ⟨R, ?_, ?_, ?_⟩
    · rw [hputs, hl.queued, hpending, List.append_assoc]
    · rw [hsyntheses, hl.synthesized]
    · rw [hdeliveries, hunsent, hl.delivered]
  | sayingDone hpc R q hledger =>
    refine .sayingDone (hemit.trans hpc) R (q ++ items) ⟨?_, ?_, ?_⟩
    · rw [hputs, hledger.queued]
      simp
    · rw [hsyntheses, hledger.synthesized]
    · rw [hdeliveries, hledger.delivered]
  | sayingError message hpc hchunks hwhy =>
    exact .sayingError message (hemit.trans hpc) (by rwa [hdeliveries])
      (hwhy.imp hexcused (hbroken _ _))
  | answered hpc R q hp hs hd =>
    refine .answered (hemit.trans hpc) R (q ++ items) ?_ (hsyntheses.trans hs)
      (hdeliveries.trans hd)
    rw [hputs, hp]
    simp
  | gaveUp hpc chunks last hd hchunks hlast hwhy =>
    exact .gaveUp (hemit.trans hpc) chunks last (hdeliveries.trans hd) hchunks hlast
      (hwhy.imp hexcused fun ⟨message, hb⟩ => ⟨message, hbroken _ _ hb⟩)

/-- `_ship` at its next frame, with the frames of the last result not yet sent. -/
theorem Story.ship {ctx : Context} (hid : ctx.contextId = c) {frames : List Bytes}
    {evs : List (Event F)} {calls : List PoolCall}
    (hchunks : ∀ f ∈ deliveries (v.trace ++ evs), IsChunk c f)
    (hledger : v.flag = false → ∃ R : List (Shipment ops sr),
      Ledger c (v.trace ++ evs) R ctx.queue [] (frames.map (encodeChunk c))) :
    Story ops c sr (v.after (ctx.ship v.flag frames evs calls)) := by
  -- back to the queue: all frames are out, or the flag is up and the ledger no longer counts
  have hstop : ∀ hnone : v.flag = false → frames = [],
      Story ops c sr (v.after ⟨{ ctx with emit := .atGet }, evs, calls⟩) := by
    intro hnone
    refine .looping (by simp [View.after, EmitPc.PastLoop]) hchunks fun hflag => ?_
    have hclear : v.flag = false := by simpa [View.after] using hflag
    have hl := hledger hclear
    rw [hnone hclear] at hl
    exact hl
  unfold Context.ship
  split
  next => exact hstop fun _ => rfl
  next pcm rest =>
    split
    next hflag => exact hstop fun hclear => absurd hclear (by simp [hflag])
    next hflag =>
      refine .looping (by simp [View.after, EmitPc.PastLoop]) ?_ fun _ => ?_
      · intro f hf
        refine hchunks f ?_
        simpa [View.after] using hf
      · obtain ⟨R, hl⟩ := hledger (Bool.eq_false_iff.mpr hflag)
        refine ⟨R, ?_, ?_, ?_⟩
        · simpa [View.after, Context.pending] using hl.queued
        · simpa [View.after] using hl.synthesized
        · simpa [View.after, Context.unsent, hid] using hl.delivered

/-- A block of events of the task, told by what it adds to the history. -/
theorem mem_deliveries_append {tr evs : List (Event F)} (hold : ∀ f ∈ deliveries tr, IsChunk c f)
    (hnew : ∀ f ∈ deliveries evs, IsChunk c f) : ∀ f ∈ deliveries (tr ++ evs), IsChunk c f := by
  intro f hf
  rw [deliveries_append] at hf
  exact (List.mem_append.mp hf).elim (hold f) (hnew f)

/-- An emit task goes back to its queue under the flag: nothing is asked of its ledger. -/
theorem Story.underFlag {eff : Effect F} (hchunks : ∀ f ∈ deliveries v.trace, IsChunk c f)
    (hflag : v.flag = true) (hemit : eff.ctx.emit = .atGet) (hevs : deliveries eff.events = []) :
    Story ops c sr (v.after eff) := by
  refine .looping ?_ (mem_deliveries_append hchunks (by simp [hevs])) fun hclear => ?_
  · simp [View.after, hemit, EmitPc.PastLoop]
  · exact absurd hclear (by simp [View.after, hemit, hflag])

/-- An emit task crashes for a reason that excuses it. -/
theorem Story.crash {ctx : Context} {message : String} {evs : List (Event F)}
    {calls : List PoolCall} (hchunks : ∀ f ∈ deliveries v.trace, IsChunk c f)
    (hevs : deliveries evs = []) (hwhy : ∃ e ∈ evs, e.Excuses) :
    Story ops c sr (v.after (ctx.crash message evs calls)) := by
  refine .sayingError message rfl ?_ (Or.inl ?_)
  · exact mem_deliveries_append hchunks (by simp [Context.crash, hevs])
  · obtain ⟨e, he, hex⟩ := hwhy
    exact ⟨e, List.mem_append_right _ (List.mem_append_left _ he), hex⟩

/-- An emit task ends without an answer, and something excuses it. -/
theorem Story.giveUp {ctx : Context} {evs : List (Event F)} {calls : List PoolCall}
    (hchunks : ∀ f ∈ deliveries v.trace, IsChunk c f)
    (hevs : ∀ f ∈ deliveries evs, IsChunk c f) (hwhy : Excused (v.trace ++ evs)) :
    Story ops c sr (v.after (ctx.finish evs calls)) :=
  .gaveUp rfl (deliveries (v.trace ++ evs)) [] (List.append_nil _).symm
    (mem_deliveries_append hchunks hevs) (Or.inl rfl) (Or.inl hwhy)

/-- The error frame goes out: nothing delivered after the chunks but itself. -/
theorem Story.errorOut {ctx : Context} {message : String} (hid : ctx.contextId = c)
    (hchunks : ∀ f ∈ deliveries v.trace, IsChunk c f)
    (hwhy : Excused v.trace ∨ Broken ops sr c v.trace message []) :
    Story ops c sr (v.after (ctx.finish
      [.delivered (encodeError (some ctx.contextId) s!"server: {message}")] [])) := by
  refine .gaveUp rfl (deliveries v.trace) [encodeError (some c) s!"server: {message}"]
    (by simp [View.after, Context.finish, hid]) hchunks (Or.inr ⟨_, rfl⟩) ?_
  refine hwhy.imp (fun hex => hex.append _) fun hb => ?_
  obtain ⟨R, chunk, result, q, hpipe, hp, hs, hd⟩ := hb
  refine ⟨message, R, chunk, result, q, hpipe, ?_, ?_, ?_⟩
  · simpa [View.after, Context.finish] using hp
  · simpa [View.after, Context.finish] using hs
  · simpa [View.after, Context.finish, hid] using hd

/-- Every step of the emit task continues the story. -/
theorem Story.task (h : Story ops c sr v) (hid : v.ctx.contextId = c)
    (hrate : v.ctx.outputSr = sr) (hflagged : v.flag = true → Excused v.trace)
    {eff : Effect F}
    (htask : TaskStep ops Res sid v.flag (.closing v.ctx.contextId ∈ v.trace) v.ctx eff) :
    Story ops c sr (v.after eff) := by
  have hclosed : (.closing v.ctx.contextId : Event F) ∈ v.trace → Excused v.trace :=
    fun hmem => ⟨_, hmem, trivial⟩
  cases htask with
  | start hemit =>
    obtain ⟨hchunks, hledger⟩ := h.inLoop (by simp [hemit, EmitPc.PastLoop])
    refine .looping (by simp [View.after, EmitPc.PastLoop]) (by simpa [View.after] using hchunks)
      fun hflag => ?_
    obtain ⟨R, hl⟩ := hledger (by simpa [View.after] using hflag)
    rw [Context.pending, Context.unsent, hemit] at hl
    exact ⟨R, by simpa [View.after, Context.pending, Context.unsent] using hl⟩
  | eofDropped q hemit hqueue hflag =>
    -- under the flag the task ends in silence, and the flag excuses it
    obtain ⟨hchunks, -⟩ := h.inLoop (by simp [hemit, EmitPc.PastLoop])
    exact .giveUp hchunks (by simp) ((hflagged hflag).append _)
  | eof q hemit hqueue hflag =>
    obtain ⟨-, hledger⟩ := h.inLoop (by simp [hemit, EmitPc.PastLoop])
    obtain ⟨R, hl⟩ := hledger hflag
    rw [Context.pending, Context.unsent, hemit, hqueue] at hl
    -- nothing stands ahead of this EOF any more
    refine .sayingDone rfl R q ⟨?_, ?_, ?_⟩
    · simpa [View.after] using hl.queued
    · simpa [View.after] using hl.synthesized
    · simpa [View.after] using hl.delivered
  | dropped chunk q hemit hqueue hflag =>
    obtain ⟨hchunks, -⟩ := h.inLoop (by simp [hemit, EmitPc.PastLoop])
    exact .underFlag hchunks hflag hemit rfl
  | submitted chunk q hemit hqueue hflag =>
    obtain ⟨hchunks, hledger⟩ := h.inLoop (by simp [hemit, EmitPc.PastLoop])
    obtain ⟨R, hl⟩ := hledger hflag
    rw [Context.pending, Context.unsent, hemit, hqueue] at hl
    -- the chunk leaves the queue and is pending at the worker
    refine .looping (by simp [View.after, EmitPc.PastLoop]) (by simpa [View.after] using hchunks)
      fun _ => ⟨R, ?_, ?_, ?_⟩
    · simpa [View.after, Context.pending] using hl.queued
    · simpa [View.after] using hl.synthesized
    · simpa [View.after, Context.unsent] using hl.delivered
  | synthFailed chunk message hemit hres =>
    obtain ⟨hchunks, -⟩ := h.inLoop (by simp [hemit, EmitPc.PastLoop])
    exact .crash hchunks (by simp) ⟨_, List.mem_singleton_self _, trivial⟩
  | synthDropped chunk result hemit hres hflag =>
    obtain ⟨hchunks, -⟩ := h.inLoop (by simp [hemit, EmitPc.PastLoop])
    exact .underFlag hchunks hflag rfl rfl
  | pipelineFailed chunk result message hemit hres hflag hpipe =>
    obtain ⟨hchunks, hledger⟩ := h.inLoop (by simp [hemit, EmitPc.PastLoop])
    obtain ⟨R, hl⟩ := hledger hflag
    rw [Context.pending, Context.unsent, hemit] at hl
    rw [hrate] at hpipe
    refine .sayingError message rfl
      (mem_deliveries_append hchunks (by simp [Context.crash])) (Or.inr ?_)
    refine ⟨R, chunk, result, v.ctx.queue, hpipe, ?_, ?_, ?_⟩
    · simpa [View.after, Context.crash] using hl.queued
    · simpa [View.after, Context.crash] using hl.synthesized
    · simpa [View.after, Context.crash] using hl.delivered
  | shipped chunk result frames hemit hres hflag hpipe =>
    obtain ⟨hchunks, hledger⟩ := h.inLoop (by simp [hemit, EmitPc.PastLoop])
    obtain ⟨R, hl⟩ := hledger hflag
    rw [Context.pending, Context.unsent, hemit] at hl
    rw [hrate] at hpipe
    refine .ship hid (mem_deliveries_append hchunks (by simp)) fun _ => ?_
    -- the result becomes the last shipment, with all its frames unsent
    refine ⟨R ++ [⟨chunk, result, frames, hpipe⟩], ?_, ?_, ?_⟩
    · simpa using hl.queued
    · simpa [Shipment.record] using hl.synthesized
    · simpa [Shipment.sent] using hl.delivered
  | chunkSent pcm rest hemit =>
    obtain ⟨hchunks, hledger⟩ := h.inLoop (by simp [hemit, EmitPc.PastLoop])
    -- one frame moves from the unsent to the delivered ones
    refine .ship hid (mem_deliveries_append hchunks ?_) fun hflag => ?_
    · simp [hid]
    · obtain ⟨R, hl⟩ := hledger hflag
      rw [Context.pending, Context.unsent, hemit, hid] at hl
      refine ⟨R, ?_, ?_, ?_⟩
      · simpa using hl.queued
      · simpa using hl.synthesized
      · simpa [hid] using hl.delivered
  | chunkFailed pcm rest message hemit =>
    obtain ⟨hchunks, -⟩ := h.inLoop (by simp [hemit, EmitPc.PastLoop])
    exact .crash hchunks (by simp) ⟨_, List.mem_singleton_self _, trivial⟩
  | doneSent hemit =>
    obtain ⟨R, q, hl⟩ := h.atDone hemit
    -- the ledger was in order when the EOF was taken, and now `done` is behind it
    refine .answered rfl R q ?_ ?_ ?_
    · simpa [View.after, Context.finish] using hl.queued
    · simpa [View.after, Context.finish] using hl.synthesized
    · simpa [View.after, Context.finish, hid] using hl.delivered
  | doneFailed message hemit =>
    obtain ⟨R, q, hl⟩ := h.atDone hemit
    exact .crash hl.chunks (by simp) ⟨_, List.mem_singleton_self _, trivial⟩
  | errorSent message hemit =>
    obtain ⟨hchunks, hwhy⟩ := h.atError hemit
    exact .errorOut hid hchunks hwhy
  | errorFailed message hemit =>
    obtain ⟨hchunks, -⟩ := h.atError hemit
    exact .giveUp hchunks (by simp)
      ⟨_, List.mem_append_right _ (List.mem_singleton_self _), trivial⟩
  | killedAtGet hclosing hemit | killedInSynth chunk hclosing hemit =>
    obtain ⟨hchunks, -⟩ := h.inLoop (by simp [hemit, EmitPc.PastLoop])
    exact .giveUp hchunks (by simp) ((hclosed hclosing).append _)
  | killedInSend pcm rest hclosing hemit out =>
    obtain ⟨hchunks, -⟩ := h.inLoop (by simp [hemit, EmitPc.PastLoop])
    refine .giveUp hchunks ?_ ((hclosed hclosing).append _)
    cases out <;> simp [Event.sendEnded, hid]
  | killedInDone hclosing hemit =>
    obtain ⟨R, q, hl⟩ := h.atDone hemit
    exact .giveUp hl.chunks (by simp) ((hclosed hclosing).append _)

/-- The story of a context, told under its own name and rate; its flag was raised for a
reason. -/
structure Told (ops : AudioOps F) (v : View F) : Prop where
  flagged : v.flag = true → Excused v.trace
  story : Story ops v.ctx.contextId v.ctx.outputSr v

theorem born_told (msg : IncomingText) : Told ops (View.born F msg) where
  flagged h := absurd h (by simp [View.born])
  story := by
    obtain ⟨hputs, hsyn, hdel, -⟩ := textEvents_read (F := F) (makeContext msg) msg
    refine .looping (by simp [View.born, Context.onText, makeContext, EmitPc.PastLoop]) ?_
      fun _ => ⟨[], ?_, hsyn, ?_⟩
    · intro f hf
      rw [show (View.born F msg).trace = textEvents (makeContext msg) msg from rfl, hdel] at hf
      exact absurd hf List.not_mem_nil
    · exact hputs
    · show deliveries (textEvents (makeContext msg) msg) ++ [] = []
      rw [hdel]
      rfl

theorem Life.told (hlife : Life ops Res sid v v') (h : Told ops v) : Told ops v' := by
  obtain ⟨hid, -, hrate⟩ := hlife.keeps
  refine ⟨?_, ?_⟩
  · -- only a cancel or `close` raises the flag
    cases hlife with
    | text msg => exact fun hflag => (h.flagged hflag).append _
    | cancel =>
      exact fun _ => ⟨.cancelHandled v.ctx.contextId, by simp, trivial⟩
    | closing => exact fun _ => ⟨.closing v.ctx.contextId, by simp, trivial⟩
    | task eff htask =>
      intro hflag
      by_cases hend : eff.ctx.emit = .finished
      · simp [View.after, hend] at hflag
      · rw [View.after, if_neg hend] at hflag
        exact (h.flagged hflag).append _
  · rw [hid, hrate]
    cases hlife with
    | text msg =>
      obtain ⟨hputs, hsyn, hdel, -⟩ := textEvents_read (F := F) v.ctx msg
      exact h.story.enqueue rfl rfl (fun hflag => ⟨hflag, rfl⟩)
        (by rw [puts_append, hputs]) (by rw [syntheses_append, hsyn, List.append_nil])
        (by rw [deliveries_append, hdel, List.append_nil]) (fun hex => hex.append _)
    | cancel =>
      refine h.story.enqueue rfl rfl (fun hflag => absurd hflag (by simp))
        (puts_append _ _) ?_ ?_ (fun hex => hex.append _)
      · simp
      · simp
    | closing =>
      refine h.story.enqueue rfl rfl (fun hflag => absurd hflag (by simp))
        (puts_append _ _) ?_ ?_ (fun hex => hex.append _)
      · simp
      · simp
    | task eff htask => exact h.story.task rfl rfl h.flagged htask

/-- Every context has a story. -/
theorem Lives.told (h : Lives ops Res sid v) : Told ops v := by
  induction h with
  | born msg => exact born_told msg
  | step _ hlife ih => exact hlife.told ih

end Preservation

end SupertonicServer
