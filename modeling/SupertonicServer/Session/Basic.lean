import Mathlib.Logic.Function.Basic
import SupertonicServer.Audio.Array
import SupertonicServer.Pool.Basic

/-!
# One connection

`Session` of `session.py` and the receive loop of `tts_ws` around it. asyncio runs one task
at a time and switches only where a task is suspended at an await, so a step of the model is
the code between two awaits of one task. The awaits that matter:

* the receive loop: `ws.receive_text`, the send of a parse-error frame, and the `wait_for` of
  `close`; putting into the unbounded queues never suspends, so handling a text or a cancel
  frame is one step;
* an emit task: `queue.get`, the executor call inside `synthesize`, and each send.

Every await of an emit task is a switch point here, also where asyncio would go on at once
(a `get` from a nonempty queue): the runs of the model include those of the event loop.

`objs` holds every `_Context` the session has made, with its emit task; `contexts` is the key
order of the dict `_contexts`, which `close` clears while the objects live on. `trace` is the
history of the connection; no step reads it. An exception is its message.
-/

namespace SupertonicServer

open Coalescer (Chunk TextCoalescer)
open Wire (Bytes IncomingText IncomingMessage ServerFrame encodeChunk encodeDone encodeError)
open Audio (AudioOps SynthResult pipelineArray)
open Pool (Owner Outcome PoolCall WorkerPool ExecAct)

variable {F : Type}

/-- Where an emit task is suspended. `created` is a task that has not run yet; `inSend`
keeps the frames of the current result still to be shipped. -/
inductive EmitPc where
  | created
  | atGet
  | inSynth (chunk : Chunk)
  | inSend (frame : Bytes) (rest : List Bytes)
  | inDone
  | inError (message : String)
  | finished
deriving DecidableEq

/-- `_Context`; `none` in the queue is the EOF sentinel. -/
structure Context where
  contextId : String
  voiceId : String
  outputSr : Int
  coalescer : TextCoalescer
  queue : List (Option Chunk)
  emit : EmitPc

/-- What happens on a connection, in the order it happens. -/
inductive Event (F : Type) where
  | textHandled (m : IncomingText)
  | cancelHandled (contextId : String)
  | closing (contextId : String)
  | put (contextId : String) (item : Option Chunk)
  | submitted (contextId : String) (chunk : Chunk) (voiceName : String)
  | synthesized (contextId : String) (chunk : Chunk) (outcome : Outcome F)
  | sendStarted (frame : ServerFrame)
  | delivered (frame : ServerFrame)
  | sendFailed (frame : ServerFrame)
deriving DecidableEq

/-- The context an event belongs to; parse-error frames belong to none. -/
def Event.contextId? : Event F → Option String
  | .textHandled m => some m.contextId
  | .cancelHandled c => some c
  | .closing c => some c
  | .put c _ => some c
  | .submitted c _ _ => some c
  | .synthesized c _ _ => some c
  | .sendStarted f => f.contextId?
  | .delivered f => f.contextId?
  | .sendFailed f => f.contextId?

/-- The send of a frame ends: the frame has gone out, or it has not. -/
def Event.sendEnded (out : Bool) (frame : ServerFrame) : Event F :=
  if out then .delivered frame else .sendFailed frame

/-- Where the task that runs `tts_ws` is suspended: in `receive_text`, in the send of a
parse-error frame, in the `wait_for` on the emit task of `awaited` with `rest` still to
visit, or nowhere, after `close` has returned. -/
inductive RecvPc where
  | listening
  | sendingError (reason : String)
  | closing (awaited : String) (rest : List String)
  | closed
deriving DecidableEq

structure Session (F : Type) where
  objs : String → Option Context
  contexts : List String
  closed : Bool
  recv : RecvPc
  trace : List (Event F)

/-- A new session. -/
def Session.init (F : Type) : Session F :=
  { objs := fun _ => none, contexts := [], closed := false, recv := .listening, trace := [] }

/-- `self._contexts.get(context_id)`. -/
def Session.get? (s : Session F) (contextId : String) : Option Context :=
  if contextId ∈ s.contexts then s.objs contextId else none

/-- A context of the session is now `ctx`, and these events have happened. -/
def Session.withContext (s : Session F) (contextId : String) (ctx : Context)
    (events : List (Event F)) : Session F :=
  { s with
    objs := Function.update s.objs contextId (some ctx)
    trace := s.trace ++ events }

@[simp] theorem withContext_objs_self (s : Session F) (c : String) (ctx : Context)
    (events : List (Event F)) : (s.withContext c ctx events).objs c = some ctx :=
  Function.update_self ..

theorem withContext_objs_ne (s : Session F) {c d : String} (ctx : Context)
    (events : List (Event F)) (hne : d ≠ c) : (s.withContext c ctx events).objs d = s.objs d :=
  Function.update_of_ne hne ..

/-- A context found after the update is the new one or an old one. -/
theorem update_some_cases {objs : String → Option Context} {c d : String} {ctx ctx' : Context}
    (h : Function.update objs c (some ctx) d = some ctx') :
    (d = c ∧ ctx' = ctx) ∨ (d ≠ c ∧ objs d = some ctx') := by
  by_cases hd : d = c
  · rw [hd, Function.update_self] at h
    exact Or.inl ⟨hd, (Option.some.inj h).symm⟩
  · rw [Function.update_of_ne hd] at h
    exact Or.inr ⟨hd, h⟩

@[simp] theorem withContext_trace (s : Session F) (c : String) (ctx : Context)
    (events : List (Event F)) : (s.withContext c ctx events).trace = s.trace ++ events := rfl

@[simp] theorem withContext_recv (s : Session F) (c : String) (ctx : Context)
    (events : List (Event F)) : (s.withContext c ctx events).recv = s.recv := rfl

/-! ## Handling a frame -/

/-- `_make_context`. -/
def makeContext (firstMsg : IncomingText) : Context :=
  { contextId := firstMsg.contextId
    voiceId := firstMsg.voice.id
    outputSr := firstMsg.outputFormat.sampleRate
    coalescer := TextCoalescer.fresh
    queue := []
    emit := .created }

/-- What `_on_text` puts into the queue of a context, and the coalescer afterwards. -/
def textItems (c : TextCoalescer) (msg : IncomingText) :
    List (Option Chunk) × TextCoalescer :=
  if msg.isFlush then
    -- drain the coalescer, then EOF
    let r := c.flush
    (r.1.map some ++ [none], r.2)
  else
    let r := c.push msg.transcript.toList
    if msg.continue_ then (r.1.map some, r.2)
    else
      -- the last text frame of the context: drain and EOF behind the push
      let q := r.2.flush
      (r.1.map some ++ q.1.map some ++ [none], q.2)

/-- `_on_text` on the context of the frame. -/
def Context.onText (ctx : Context) (msg : IncomingText) : Context :=
  let r := textItems ctx.coalescer msg
  { ctx with coalescer := r.2, queue := ctx.queue ++ r.1 }

/-- The events of `_on_text`. -/
def textEvents (ctx : Context) (msg : IncomingText) : List (Event F) :=
  .textHandled msg :: (textItems ctx.coalescer msg).1.map (.put msg.contextId)

/-- `_on_text`. -/
def Session.onText (s : Session F) (msg : IncomingText) : Session F :=
  match s.get? msg.contextId with
  | none =>
    let ctx := makeContext msg
    Session.withContext { s with contexts := s.contexts ++ [msg.contextId] } msg.contextId
      (ctx.onText msg) (textEvents ctx msg)
  | some ctx => s.withContext msg.contextId (ctx.onText msg) (textEvents ctx msg)

/-- `_cancel`: flag the context, drain its queue, inject EOF. -/
def Session.cancel (s : Session F) (contextId : String) : Session F × List PoolCall :=
  match s.get? contextId with
  | none => (s, [])
  | some ctx =>
    (s.withContext contextId { ctx with queue := [none] }
        [.cancelHandled contextId, .put contextId none],
      [.cancel contextId])

/-- `handle`. -/
def Session.handle (s : Session F) (msg : IncomingMessage) :
    Option (Session F × List PoolCall) :=
  -- a closed session ignores every frame
  if s.closed then some (s, [])
  else
    match s.recv with
    | .listening =>
      match msg with
      | .parseError e =>
        some ({ s with
          recv := .sendingError e.reason
          trace := s.trace ++ [.sendStarted (encodeError none e.reason)] }, [])
      | .cancel m => some (s.cancel m.contextId)
      | .text m => some (s.onText m, [])
    | _ => none

/-! ## The emit task -/

/-- What a step of an emit task does: its context, the events, the calls on the pool. -/
structure Effect (F : Type) where
  ctx : Context
  events : List (Event F)
  calls : List PoolCall

/-- The `finally` block: the task ends and the pool forgets the context. -/
def Context.finish (ctx : Context) (events : List (Event F)) (calls : List PoolCall) :
    Effect F :=
  { ctx := { ctx with emit := .finished }
    events := events
    calls := calls ++ [.forget ctx.contextId] }

/-- The `except Exception` block: the send of an error frame starts. -/
def Context.crash (ctx : Context) (message : String) (events : List (Event F))
    (calls : List PoolCall) : Effect F :=
  { ctx := { ctx with emit := .inError message }
    events := events ++
      [.sendStarted (encodeError (some ctx.contextId) s!"server: {message}")]
    calls := calls }

/-- The loop of `_ship` at its next frame; `cancelled` is what `is_cancelled` answers there. -/
def Context.ship (cancelled : Bool) (ctx : Context) (frames : List Bytes)
    (events : List (Event F)) (calls : List PoolCall) : Effect F :=
  match frames with
  | [] => { ctx := { ctx with emit := .atGet }, events := events, calls := calls }
  | frame :: rest =>
    if cancelled then
      { ctx := { ctx with emit := .atGet }, events := events, calls := calls }
    else
      { ctx := { ctx with emit := .inSend frame rest }
        events := events ++ [.sendStarted (encodeChunk ctx.contextId frame)]
        calls := calls }

/-- The emit loop of session `sid` goes on from its first step, from `queue.get` or from
`synthesize`, as far as its next await. -/
def Context.resume (ops : AudioOps F) (p : WorkerPool F) (sid : Nat) (ctx : Context) :
    Option (Effect F) :=
  match ctx.emit with
  | .created => some { ctx := { ctx with emit := .atGet }, events := [], calls := [] }
  | .atGet =>
    match ctx.queue with
    | [] => none
    | none :: q =>
      -- EOF: the loop ends, and `done` goes out unless the context is cancelled
      let ctx := { ctx with queue := q }
      if p.isCancelled ctx.contextId then some (ctx.finish [] [])
      else some {
        ctx := { ctx with emit := .inDone }
        events := [.sendStarted (encodeDone ctx.contextId)]
        calls := [] }
    | some chunk :: q =>
      -- the flag is asked here and once more inside `synthesize`
      let ctx := { ctx with queue := q }
      if p.isCancelled ctx.contextId then some { ctx := ctx, events := [], calls := [] }
      else
        match p.synthesizeStart ctx.contextId with
        | .raises message => some (ctx.crash message [] [])
        | .returnsNone => some { ctx := ctx, events := [], calls := [] }
        | .submits => some {
            ctx := { ctx with emit := .inSynth chunk }
            events := [.submitted ctx.contextId chunk ctx.voiceId]
            calls := [.submit ⟨sid, ctx.contextId⟩ chunk ctx.voiceId] }
  | .inSynth chunk =>
    let owner : Owner := ⟨sid, ctx.contextId⟩
    match p.result? owner with
    | none => none
    | some outcome =>
      let events := [.synthesized ctx.contextId chunk outcome]
      match p.synthesizeEnd ctx.contextId outcome with
      | .error message => some (ctx.crash message events [.collect owner])
      | .ok none =>
        -- cancelled while in flight
        some { ctx := { ctx with emit := .atGet }, events := events, calls := [.collect owner] }
      | .ok (some result) =>
        match pipelineArray ops (.ofList result.wavF32) result.sampleRate ctx.outputSr with
        | .error message => some (ctx.crash message events [.collect owner])
        | .ok frames => some (ctx.ship (p.isCancelled ctx.contextId) frames events [.collect owner])
  | .inSend _ _ => none
  | .inDone => none
  | .inError _ => none
  | .finished => none

/-- The send of an emit task returns, or raises the exception `exc`. -/
def Context.sent (p : WorkerPool F) (ctx : Context) (exc : Option String) : Option (Effect F) :=
  match ctx.emit with
  | .inSend pcm rest =>
    let frame := encodeChunk ctx.contextId pcm
    match exc with
    | none => some (ctx.ship (p.isCancelled ctx.contextId) rest [.delivered frame] [])
    | some message => some (ctx.crash message [.sendFailed frame] [])
  | .inDone =>
    let frame := encodeDone ctx.contextId
    match exc with
    | none => some (ctx.finish [.delivered frame] [])
    | some message => some (ctx.crash message [.sendFailed frame] [])
  | .inError message =>
    let frame := encodeError (some ctx.contextId) s!"server: {message}"
    match exc with
    | none => some (ctx.finish [.delivered frame] [])
    -- the inner `except Exception: pass`
    | some _ => some (ctx.finish [.sendFailed frame] [])
  | _ => none

/-- `wait_for` times out and cancels the emit task, which ends through `finally`. A frame
being sent may or may not have gone out. A task that has never run is not reached: it is
scheduled before any timeout. -/
def Context.kill (sid : Nat) (ctx : Context) (out : Bool) : Option (Effect F) :=
  match ctx.emit with
  | .created => none
  | .atGet => some (ctx.finish [] [])
  | .inSynth _ => some (ctx.finish [] [.abandon ⟨sid, ctx.contextId⟩])
  | .inSend pcm _ => some (ctx.finish [.sendEnded out (encodeChunk ctx.contextId pcm)] [])
  | .inDone => some (ctx.finish [.sendEnded out (encodeDone ctx.contextId)] [])
  | .inError message =>
    let frame := encodeError (some ctx.contextId) s!"server: {message}"
    some (ctx.finish [.sendEnded out frame] [])
  | .finished => none

/-- A step of the emit task of `contextId` takes effect on the session. -/
def Session.applyEffect (s : Session F) (contextId : String) (eff : Effect F) :
    Session F × List PoolCall :=
  (s.withContext contextId eff.ctx eff.events, eff.calls)

/-! ## Closing -/

/-- The loop of `close` at its next context: flag it, put EOF, await its emit task; after the
last one clear the table. -/
def Session.visit (s : Session F) (todo : List String) : Session F × List PoolCall :=
  match todo with
  | [] => ({ s with contexts := [], recv := .closed }, [])
  | c :: rest =>
    let s' : Session F := { s with recv := .closing c rest }
    match s.objs c with
    | none => (s', [.cancel c])
    | some ctx =>
      (s'.withContext c { ctx with queue := ctx.queue ++ [none] } [.closing c, .put c none],
        [.cancel c])

/-- `close` up to its first await, on a snapshot of the table. -/
def Session.close (s : Session F) : Session F × List PoolCall :=
  Session.visit { s with closed := true } s.contexts

/-! ## The steps of a session -/

/-- A step of a session, with the answer of its environment. -/
inductive Action where
  /-- the receive loop hands a decoded frame to `handle` -/
  | handle (msg : IncomingMessage)
  /-- the send of a parse-error frame returns (`true`) or raises -/
  | errorSent (ok : Bool)
  /-- an emit task goes on from `queue.get` or `synthesize` -/
  | emit (contextId : String)
  /-- the send of an emit task returns or raises -/
  | sent (contextId : String) (exc : Option String)
  /-- the receive loop ends, by a disconnect or an exception, and `close` begins -/
  | disconnect
  /-- the emit task `close` awaits has finished -/
  | closeNext
  /-- the `wait_for` of `close` times out -/
  | timeout (out : Bool)

def Session.step (ops : AudioOps F) (p : WorkerPool F) (sid : Nat) (s : Session F) :
    Action → Option (Session F × List PoolCall)
  | .handle msg => s.handle msg
  | .errorSent ok =>
    match s.recv with
    | .sendingError reason =>
      let frame := encodeError none reason
      if ok then
        some ({ s with recv := .listening, trace := s.trace ++ [.delivered frame] }, [])
      -- the exception of the send leaves `handle` and ends the receive loop
      else some (Session.close { s with trace := s.trace ++ [Event.sendFailed frame] })
    | _ => none
  | .emit c => do
    let ctx ← s.objs c
    let eff ← ctx.resume ops p sid
    return s.applyEffect c eff
  | .sent c exc => do
    let ctx ← s.objs c
    let eff ← ctx.sent p exc
    return s.applyEffect c eff
  | .disconnect =>
    match s.recv with
    | .listening => some s.close
    | _ => none
  | .closeNext =>
    match s.recv with
    | .closing c rest =>
      match s.objs c with
      | some ctx => if ctx.emit = .finished then some (s.visit rest) else none
      | none => none
    | _ => none
  | .timeout out =>
    match s.recv with
    | .closing c _ => do
      let ctx ← s.objs c
      let eff ← ctx.kill sid out
      return s.applyEffect c eff
    | _ => none

/-! ## A session alone on its pool -/

/-- A pool and the one session that uses it. -/
structure Solo (F : Type) where
  pool : WorkerPool F
  session : Session F

inductive SoloAct (F : Type) where
  | sess (a : Action)
  | exec (e : ExecAct F)

def Solo.init (F : Type) (n : ℕ+) : Solo F :=
  { pool := WorkerPool.started F n, session := Session.init F }

/-- A step of the session `sid`, or of the executor. -/
def Solo.step (ops : AudioOps F) (sid : Nat) (w : Solo F) : SoloAct F → Option (Solo F)
  | .sess a =>
    (w.session.step ops w.pool sid a).map fun r =>
      { pool := w.pool.calls r.2, session := r.1 }
  | .exec e => (w.pool.exec e).map fun p => { w with pool := p }

end SupertonicServer
