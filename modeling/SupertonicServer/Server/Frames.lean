import SupertonicServer.Server.Basic
import SupertonicServer.Session.Story
import SupertonicServer.Wire.Decode

/-!
# The receive loop on raw frames

The loop of `tts_ws` with the frames as they come in: `decode` makes a message of each, and an
exception of `decode` ends the loop and closes the session. A frame for which `decode` returns
a `ParseError` is answered by an error frame without a context; everything else a connection
does is seen in `Session.withoutErrors`, where those frames are left out, and there each step
that is not about them is the same step (`quiet_step`).
-/

namespace SupertonicServer

open Wire (ServerFrame LoadsResult LoadsRaises decode encodeError)
open Audio (AudioOps)
open Pool

variable {F : Type}

/-- A step of the server when every send succeeds and no client hangs up. A frame is marked
`inserted` or not; the server does not see the mark. -/
inductive WsAct (F : Type) where
  | receive (sid : Nat) (inserted : Bool) (raw : String)
  | errorSent (sid : Nat)
  | emit (sid : Nat) (contextId : String)
  | sent (sid : Nat) (contextId : String)
  | closeNext (sid : Nat)
  | timeout (sid : Nat) (out : Bool)
  | exec (e : ExecAct F)

/-- The loop of `tts_ws` on its next frame. -/
def Server.receive (ops : AudioOps F) (loads : String → LoadsResult) (s : Server F) (sid : Nat)
    (raw : String) : Option (Server F) :=
  match (s.sessions sid).recv with
  | .listening =>
    match decode loads raw with
    | .ok msg => s.step ops (.sess sid (.handle msg))
    -- the catch-all of the loop: log, then `close` in the `finally`
    | .error _ => s.step ops (.sess sid .disconnect)
  | _ => none

def Server.wsStep (ops : AudioOps F) (loads : String → LoadsResult) (s : Server F) :
    WsAct F → Option (Server F)
  | .receive sid _ raw => s.receive ops loads sid raw
  | .errorSent sid => s.step ops (.sess sid (.errorSent true))
  | .emit sid c => s.step ops (.sess sid (.emit c))
  | .sent sid c => s.step ops (.sess sid (.sent c none))
  | .closeNext sid => s.step ops (.sess sid .closeNext)
  | .timeout sid out => s.step ops (.sess sid (.timeout out))
  | .exec e => s.step ops (.exec e)

/-- The frame is no text frame and no cancel frame. -/
def NoMessage (loads : String → LoadsResult) (raw : String) : Prop :=
  (∀ m, decode loads raw ≠ .ok (.text m)) ∧ ∀ m, decode loads raw ≠ .ok (.cancel m)

/-- A step of a run without the inserted frames: neither their receipt nor the end of the
send of their error frames. `pending` says on which connections such a send is going on. -/
def WsAct.strip (pending : Nat → Bool) : WsAct F → List (WsAct F) × (Nat → Bool)
  | .receive sid inserted raw =>
    if inserted then ([], Function.update pending sid true)
    else ([.receive sid inserted raw], pending)
  | .errorSent sid =>
    if pending sid then ([], Function.update pending sid false) else ([.errorSent sid], pending)
  | a => ([a], pending)

/-- A run without the inserted frames. -/
def strip (pending : Nat → Bool) : List (WsAct F) → List (WsAct F)
  | [] => []
  | a :: as => (a.strip pending).1 ++ strip (a.strip pending).2 as

/-- The frames received on connection `sid`, with their marks. -/
def received (sid : Nat) (acts : List (WsAct F)) : List (Bool × String) :=
  acts.filterMap fun
    | .receive sid' inserted raw => if sid' = sid then some (inserted, raw) else none
    | _ => none

/-- The error frames that frames which are no messages are owed. -/
def errorReports (loads : String → LoadsResult) (frames : List (Bool × String)) :
    List ServerFrame :=
  frames.filterMap fun frame =>
    match decode loads frame.2 with
    | .ok (.parseError e) => some (encodeError none e.reason)
    | _ => none

/-- The error frames without a context that have gone out or are going out. -/
def Session.reports (s : Session F) : List ServerFrame :=
  (deliveries s.trace).filter (fun f => f.contextId? = none) ++
    match s.recv with
    | .sendingError reason => [encodeError none reason]
    | _ => []

/-- The session without its receive loop and the events of no context. -/
def Session.withoutErrors (s : Session F) : Session F :=
  { s with recv := .listening, trace := s.trace.filter fun e => e.contextId?.isSome }

/-! ## Steps that do not see the error frames -/

section Sessions

variable {ops : AudioOps F} {p : WorkerPool F} {sid : Nat}

theorem withContext_withoutErrors (s : Session F) {c : String} (ctx : Context)
    {evs : List (Event F)} (hevs : ∀ e ∈ evs, e.contextId? = some c) :
    (s.withContext c ctx evs).withoutErrors = s.withoutErrors.withContext c ctx evs := by
  have hall : evs.filter (fun e => e.contextId?.isSome) = evs :=
    List.filter_eq_self.mpr fun e he => by rw [hevs e he]; rfl
  simp only [Session.withoutErrors, Session.withContext, List.filter_append, hall]

theorem onText_withoutErrors (s : Session F) (msg : Wire.IncomingText) :
    (s.onText msg).withoutErrors = s.withoutErrors.onText msg := by
  have hget : s.withoutErrors.get? msg.contextId = s.get? msg.contextId := rfl
  unfold Session.onText
  rw [hget]
  cases s.get? msg.contextId with
  | none => exact withContext_withoutErrors _ _ (textEvents_contextId _ msg)
  | some ctx => exact withContext_withoutErrors _ _ (textEvents_contextId ctx msg)

theorem cancel_withoutErrors (s : Session F) (c : String) :
    ((s.cancel c).1.withoutErrors, (s.cancel c).2) = s.withoutErrors.cancel c := by
  have hget : s.withoutErrors.get? c = s.get? c := rfl
  unfold Session.cancel
  rw [hget]
  cases s.get? c with
  | none => rfl
  | some ctx =>
    dsimp only
    rw [withContext_withoutErrors _ _ (by simp [Event.contextId?])]

/-- A step that has nothing to do with the error frames of the connection. -/
def Action.Quiet (s : Session F) : Action → Prop
  | .handle (.text _) => s.closed = false ∧ s.recv = .listening
  | .handle (.cancel _) => s.closed = false ∧ s.recv = .listening
  | .emit _ => True
  | .sent _ _ => True
  | _ => False

/-- Such a step leaves the receive loop where it is. -/
structure Unheard (s s' : Session F) : Prop where
  recv : s'.recv = s.recv
  closed : s'.closed = s.closed
  reports : s'.reports = s.reports

theorem withContext_unheard (s : Session F) {c : String} (ctx : Context) {evs : List (Event F)}
    (hevs : ∀ e ∈ evs, e.contextId? = some c) : Unheard s (s.withContext c ctx evs) := by
  refine ⟨rfl, rfl, ?_⟩
  have hnone : (deliveries evs).filter (fun f => f.contextId? = none) = [] := by
    refine List.filter_eq_nil_iff.mpr fun f hf => ?_
    obtain ⟨e, he, hef⟩ := List.mem_filterMap.mp hf
    cases e with
    | delivered g =>
      cases hef
      have hid : f.contextId? = some c := hevs _ he
      simp [hid]
    | _ => exact absurd hef (by simp)
  simp only [Session.reports, withContext_trace, withContext_recv, deliveries_append,
    List.filter_append, hnone, List.append_nil]

/-- The step `r` of `s` is the step `r₀` of the session without its error frames. -/
structure QuietStep (s : Session F) (r r₀ : Option (Session F × List PoolCall)) : Prop where
  same : r.map (Prod.map Session.withoutErrors id) = r₀
  unheard : ∀ x, r = some x → Unheard s x.1

theorem onText_quiet (s : Session F) (msg : Wire.IncomingText) :
    QuietStep s (some (s.onText msg, [])) (some (s.withoutErrors.onText msg, [])) := by
  refine ⟨?_, fun x hx => ?_⟩
  · rw [← onText_withoutErrors]
    rfl
  · cases hx
    unfold Session.onText
    cases s.get? msg.contextId with
    | none =>
      have hnew := withContext_unheard { s with contexts := s.contexts ++ [msg.contextId] }
        ((makeContext msg).onText msg) (textEvents_contextId (makeContext msg) msg)
      exact ⟨hnew.recv, hnew.closed, hnew.reports⟩
    | some ctx => exact withContext_unheard _ _ (textEvents_contextId ctx msg)

theorem cancel_quiet (s : Session F) (c : String) :
    QuietStep s (some (s.cancel c)) (some (s.withoutErrors.cancel c)) := by
  refine ⟨?_, fun x hx => ?_⟩
  · rw [← cancel_withoutErrors]
    rfl
  · cases hx
    unfold Session.cancel
    cases s.get? c with
    | none => exact ⟨rfl, rfl, rfl⟩
    | some ctx => exact withContext_unheard _ _ (by simp [Event.contextId?])

theorem task_quiet (s : Session F) {c : String} {go : Context → Option (Effect F)}
    (hevs : ∀ ctx eff, s.objs c = some ctx → go ctx = some eff →
      ∀ e ∈ eff.events, e.contextId? = some c) :
    QuietStep s ((s.objs c).bind fun ctx => (go ctx).bind fun eff => some (s.applyEffect c eff))
      ((s.objs c).bind fun ctx =>
        (go ctx).bind fun eff => some (s.withoutErrors.applyEffect c eff)) := by
  cases hctx : s.objs c with
  | none => exact ⟨rfl, fun x hx => absurd hx (by simp)⟩
  | some ctx =>
    rw [Option.bind_some, Option.bind_some]
    cases heff : go ctx with
    | none => exact ⟨rfl, fun x hx => absurd hx (by simp)⟩
    | some eff =>
      have hown := hevs ctx eff hctx heff
      refine ⟨?_, fun x hx => ?_⟩
      · show some ((s.withContext c eff.ctx eff.events).withoutErrors, eff.calls) = _
        rw [withContext_withoutErrors s eff.ctx hown]
        rfl
      · cases hx
        exact withContext_unheard s eff.ctx hown

theorem quiet_step (ops : AudioOps F) (sid : Nat) {s : Session F} (hwf : s.Wf)
    (hready : p.ready = true) {act : Action} (ha : act.Quiet s) :
    QuietStep s (s.step ops p sid act) (s.withoutErrors.step ops p sid act) := by
  -- a step of an emit task records events of its own context, which are not left out
  have htask : ∀ {c ctx eff}, s.objs c = some ctx →
      TaskStep ops (fun _ _ _ => True) sid (p.isCancelled ctx.contextId) True ctx eff →
      ∀ e ∈ eff.events, e.contextId? = some c := by
    intro c ctx eff hctx h
    obtain rfl := hwf.ids c ctx hctx
    exact h.events_contextId
  cases act with
  | handle msg =>
    cases msg with
    | parseError => exact absurd ha id
    | text m =>
      have hstep : ∀ t : Session F, t.closed = false → t.recv = .listening →
          t.step ops p sid (.handle (.text m)) = some (t.onText m, []) := by
        intro t hopen hrecv
        simp [Session.step, Session.handle, hopen, hrecv]
      rw [hstep s ha.1 ha.2, hstep s.withoutErrors ha.1 rfl]
      exact onText_quiet s m
    | cancel m =>
      have hstep : ∀ t : Session F, t.closed = false → t.recv = .listening →
          t.step ops p sid (.handle (.cancel m)) = some (t.cancel m.contextId) := by
        intro t hopen hrecv
        simp [Session.step, Session.handle, hopen, hrecv]
      rw [hstep s ha.1 ha.2, hstep s.withoutErrors ha.1 rfl]
      exact cancel_quiet s m.contextId
  | emit c =>
    exact task_quiet s fun ctx eff hctx heff =>
      htask hctx (resume_taskStep hready (fun _ _ _ _ => trivial) heff)
  | sent c exc =>
    exact task_quiet s fun ctx eff hctx heff => htask hctx (sent_taskStep heff)
  | errorSent | disconnect | closeNext | timeout => exact absurd ha id

end Sessions

/-! ## The error frames -/

section Errors

variable {ops : AudioOps F} {loads : String → LoadsResult} {p : WorkerPool F}

/-- The error frame of a frame that is no message starts to go out. -/
def Session.sendError (s : Session F) (reason : String) : Session F :=
  { s with
    recv := .sendingError reason
    trace := s.trace ++ [.sendStarted (encodeError none reason)] }

/-- It has gone out. -/
def Session.errorOut (s : Session F) (reason : String) : Session F :=
  { s with recv := .listening, trace := s.trace ++ [.delivered (encodeError none reason)] }

theorem sendError_withoutErrors (s : Session F) (reason : String) :
    (s.sendError reason).withoutErrors = s.withoutErrors := by
  simp [Session.sendError, Session.withoutErrors, Event.contextId?]

theorem errorOut_withoutErrors (s : Session F) (reason : String) :
    (s.errorOut reason).withoutErrors = s.withoutErrors := by
  simp [Session.errorOut, Session.withoutErrors, Event.contextId?]

theorem sendError_reports {s : Session F} (hrecv : s.recv = .listening) (reason : String) :
    (s.sendError reason).reports = s.reports ++ [encodeError none reason] := by
  simp [Session.reports, Session.sendError, hrecv]

theorem errorOut_reports {s : Session F} {reason : String}
    (hrecv : s.recv = .sendingError reason) : (s.errorOut reason).reports = s.reports := by
  simp [Session.reports, Session.errorOut, hrecv]

/-- A frame is a message, or it is owed an error frame. -/
theorem decode_cases {raw : String} (h : ¬ LoadsRaises loads raw) :
    (∃ m, decode loads raw = .ok (.text m)) ∨ (∃ m, decode loads raw = .ok (.cancel m)) ∨
      ∃ e, decode loads raw = .ok (.parseError e) := by
  obtain ⟨msg, hmsg⟩ := (Wire.decode_ok_iff loads raw).mpr h
  cases msg with
  | text m => exact Or.inl ⟨m, hmsg⟩
  | cancel m => exact Or.inr (Or.inl ⟨m, hmsg⟩)
  | parseError e => exact Or.inr (Or.inr ⟨e, hmsg⟩)

/-- The connection is listening when a frame is received. -/
theorem receive_listening {s s' : Server F} {sid : Nat} {raw : String}
    (h : s.receive ops loads sid raw = some s') : (s.sessions sid).recv = .listening := by
  unfold Server.receive at h
  split at h
  next hrecv => exact hrecv
  next => exact absurd h (by simp)

theorem receive_message {s : Server F} {sid : Nat} {raw : String} {msg : Wire.IncomingMessage}
    (hrecv : (s.sessions sid).recv = .listening) (hmsg : decode loads raw = .ok msg) :
    s.receive ops loads sid raw = s.step ops (.sess sid (.handle msg)) := by
  unfold Server.receive
  rw [hrecv, hmsg]

theorem receive_bad (ops : AudioOps F) {s : Server F} {sid : Nat} {raw : String}
    {e : Wire.ParseError} (hopen : (s.sessions sid).closed = false)
    (hrecv : (s.sessions sid).recv = .listening)
    (hmsg : decode loads raw = .ok (.parseError e)) :
    s.receive ops loads sid raw = some { s with
      sessions := Function.update s.sessions sid ((s.sessions sid).sendError e.reason) } := by
  rw [receive_message hrecv hmsg]
  simp [Server.step, Session.step, Session.handle, hopen, hrecv, Session.sendError]

theorem errorSent_step (ops : AudioOps F) {s : Server F} {sid : Nat} {reason : String}
    (hrecv : (s.sessions sid).recv = .sendingError reason) :
    s.step ops (.sess sid (.errorSent true)) = some { s with
      sessions := Function.update s.sessions sid ((s.sessions sid).errorOut reason) } := by
  simp [Server.step, Session.step, hrecv, Session.errorOut]

theorem errorSent_sending {s s' : Server F} {sid : Nat}
    (h : s.step ops (.sess sid (.errorSent true)) = some s') :
    ∃ reason, (s.sessions sid).recv = .sendingError reason := by
  obtain ⟨r, hr, -⟩ := Option.map_eq_some_iff.mp h
  simp only [Session.step] at hr
  split at hr
  next reason hrecv => exact ⟨reason, hrecv⟩
  next => exact absurd hr (by simp)

/-- On an open connection `close` is not under way. -/
theorem not_closing {s : Session F} (hwf : s.Wf) (hopen : s.closed = false) (c : String)
    (rest : List String) : s.recv ≠ .closing c rest := by
  intro hrecv
  rw [(hwf.awaited c rest hrecv).1] at hopen
  exact absurd hopen (by simp)

end Errors

/-! ## Steps and runs -/

section Runs

variable {ops : AudioOps F} {loads : String → LoadsResult} {s s' : Server F}

/-- Every such step is a step of the server. -/
theorem wsStep_step {a : WsAct F} (h : s.wsStep ops loads a = some s') :
    ∃ b, s.step ops b = some s' := by
  cases a with
  | receive sid inserted raw =>
    simp only [Server.wsStep, Server.receive] at h
    split at h
    next =>
      split at h
      next msg => exact ⟨_, h⟩
      next => exact ⟨_, h⟩
    next => exact absurd h (by simp)
  | errorSent sid => exact ⟨.sess sid (.errorSent true), h⟩
  | emit sid c => exact ⟨.sess sid (.emit c), h⟩
  | sent sid c => exact ⟨.sess sid (.sent c none), h⟩
  | closeNext sid => exact ⟨.sess sid .closeNext, h⟩
  | timeout sid out => exact ⟨.sess sid (.timeout out), h⟩
  | exec e => exact ⟨.exec e, h⟩

theorem wsStep_serverWf {a : WsAct F} (hwf : s.Wf) (hstep : s.wsStep ops loads a = some s') :
    s'.Wf := by
  obtain ⟨b, hb⟩ := wsStep_step hstep
  exact step_serverWf hwf hb

theorem mem_strip {pending : Nat → Bool} {a : WsAct F} {acts : List (WsAct F)}
    (h : a ∈ strip pending acts) : a ∈ acts := by
  induction acts generalizing pending with
  | nil => exact h
  | cons b acts ih =>
    rcases List.mem_append.mp h with h | h
    · have hb : a = b := by
        cases b with
        | receive sid inserted raw =>
          cases inserted with
          | true => exact absurd h List.not_mem_nil
          | false => exact List.mem_singleton.mp h
        | errorSent sid =>
          rw [WsAct.strip] at h
          split at h
          next => exact absurd h List.not_mem_nil
          next => exact List.mem_singleton.mp h
        | emit | sent | closeNext | timeout | exec => exact List.mem_singleton.mp h
      rw [hb]
      exact List.mem_cons_self
    · exact List.mem_cons_of_mem b (ih h)

theorem received_cons (sid : Nat) (a : WsAct F) (acts : List (WsAct F)) :
    received sid (a :: acts) = received sid [a] ++ received sid acts :=
  List.filterMap_append (l := [a]) ..

theorem errorReports_append (frames more : List (Bool × String)) :
    errorReports loads (frames ++ more) = errorReports loads frames ++ errorReports loads more :=
  List.filterMap_append ..

/-- Without the inserted frames, those are received that are not marked. -/
theorem received_strip (sid : Nat) (acts : List (WsAct F)) (pending : Nat → Bool) :
    received sid (strip pending acts) = (received sid acts).filter fun frame => !frame.1 := by
  induction acts generalizing pending with
  | nil => rfl
  | cons a acts ih =>
    rw [received_cons, List.filter_append, ← ih (a.strip pending).2, strip]
    unfold received
    rw [List.filterMap_append]
    congr 1
    cases a with
    | receive sid' inserted raw =>
      by_cases hs : sid' = sid
      · cases inserted <;> simp [WsAct.strip, hs]
      · cases inserted <;> simp [WsAct.strip, hs]
    | errorSent sid' =>
      cases hp : pending sid' <;> simp [WsAct.strip, hp]
    | emit | sent | closeNext | timeout | exec => rfl

theorem errorReports_receive (sid sid' : Nat) (inserted : Bool) (raw : String) :
    errorReports loads (received (F := F) sid [.receive sid' inserted raw]) =
      if sid' = sid then errorReports loads [(inserted, raw)] else [] := by
  unfold received
  by_cases hs : sid' = sid
  · simp [hs]
  · simp [hs, errorReports]

end Runs

end SupertonicServer
