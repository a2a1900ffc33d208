import SupertonicServer.Server.Deployment
import SupertonicServer.Server.Frames
import SupertonicServer.Server.OwnIds

/-!
# The program on raw frames

A deployment whose sessions are handed nothing but what `decode` makes of the frames that come
in (`Deployment.wireStep`). It runs as the deployment does (`run_wire`), and what its sessions
have handled is what was received (`run_hears`): so that conditions on the histories of the
sessions become conditions on what the clients sent.
-/

namespace SupertonicServer

open Coalescer (Chunk)
open Wire (IncomingText IncomingMessage LoadsResult decode)
open Audio (AudioOps)
open Pool
open Worker
open Lib (run)

variable {S F : Type} {ops : AudioOps F} {cfg : Config} {loads : String → LoadsResult}

/-! ## Messages -/

/-- The text frames among some messages. -/
def textsIn (msgs : List IncomingMessage) : List IncomingText :=
  msgs.filterMap fun
    | .text m => some m
    | _ => none

/-- The contexts that some messages cancel. -/
def cancelsIn (msgs : List IncomingMessage) : List String :=
  msgs.filterMap fun
    | .cancel m => some m.contextId
    | _ => none

theorem textsIn_append (msgs msgs' : List IncomingMessage) :
    textsIn (msgs ++ msgs') = textsIn msgs ++ textsIn msgs' :=
  List.filterMap_append ..

theorem cancelsIn_append (msgs msgs' : List IncomingMessage) :
    cancelsIn (msgs ++ msgs') = cancelsIn msgs ++ cancelsIn msgs' :=
  List.filterMap_append ..

/-- The message a session is handed. -/
def Action.messages : Action → List IncomingMessage
  | .handle msg => [msg]
  | _ => []

/-- Between two states a session was handed these messages and no others. -/
structure Hears (s s' : Session F) (msgs : List IncomingMessage) : Prop where
  read : s'.closed = false → texts s'.trace = texts s.trace ++ textsIn msgs
  cancelled : ∀ c, .cancelHandled c ∈ s'.trace → .cancelHandled c ∈ s.trace ∨ c ∈ cancelsIn msgs
  known : ∀ c, s'.objs c ≠ none → s.objs c ≠ none ∨ ∃ m ∈ textsIn msgs, m.contextId = c

section Sessions

variable {s s' : Session F} {p : WorkerPool F} {sid : Nat} {evs : List (Event F)}
  {msgs : List IncomingMessage}

theorem Hears.refl (s : Session F) : Hears s s [] where
  read _ := by simp [textsIn]
  cancelled _ h := Or.inl h
  known _ h := Or.inl h

theorem Hears.trans {s'' : Session F} {msgs' : List IncomingMessage} (h : Hears s s' msgs)
    (h' : Hears s' s'' msgs') (hclosed : s'.closed = true → s''.closed = true) :
    Hears s s'' (msgs ++ msgs') where
  read hopen := by
    have hopen' : s'.closed = false := by
      rw [← Bool.not_eq_true]
      intro hyes
      rw [hclosed hyes] at hopen
      exact absurd hopen (by simp)
    rw [h'.read hopen, h.read hopen', textsIn_append, List.append_assoc]
  cancelled c hc := by
    rw [cancelsIn_append, List.mem_append]
    rcases h'.cancelled c hc with hold | hnew
    · exact (h.cancelled c hold).imp id Or.inl
    · exact Or.inr (Or.inr hnew)
  known c hc := by
    rw [textsIn_append]
    rcases h'.known c hc with hold | ⟨m, hm, hmc⟩
    · exact (h.known c hold).imp id fun ⟨m, hm, hmc⟩ => ⟨m, List.mem_append_left _ hm, hmc⟩
    · exact Or.inr ⟨m, List.mem_append_right _ hm, hmc⟩

/-- What the new events tell. -/
theorem Hears.of_events (htrace : s'.trace = s.trace ++ evs) (htexts : texts evs = textsIn msgs)
    (hcancels : ∀ c, .cancelHandled c ∈ evs → c ∈ cancelsIn msgs)
    (hobjs : ∀ c, s'.objs c ≠ none → s.objs c ≠ none ∨ ∃ m ∈ textsIn msgs, m.contextId = c) :
    Hears s s' msgs where
  read _ := by rw [htrace, texts_append, htexts]
  cancelled c hc := by
    rw [htrace] at hc
    exact (List.mem_append.mp hc).imp id (hcancels c)
  known := hobjs

/-- Nothing is heard where no text and no cancel is handled. -/
theorem Hears.quiet (htrace : s'.trace = s.trace ++ evs) (htexts : texts evs = [])
    (hcancels : ∀ c, .cancelHandled c ∉ evs) (hobjs : ∀ c, s'.objs c ≠ none → s.objs c ≠ none) :
    Hears s s' [] :=
  .of_events htrace htexts (fun c hc => absurd hc (hcancels c)) fun c hc => Or.inl (hobjs c hc)

theorem withContext_known {c : String} {ctx ctx' : Context} (hctx : s.objs c = some ctx)
    (d : String) (hd : (s.withContext c ctx' evs).objs d ≠ none) : s.objs d ≠ none := by
  by_cases hdc : d = c
  · rw [hdc, hctx]
    simp
  · rwa [withContext_objs_ne s ctx' evs hdc] at hd

theorem Hears.visit (s : Session F) (todo : List String) : Hears s (s.visit todo).1 [] := by
  cases todo with
  | nil => exact .quiet (List.append_nil _).symm rfl (by simp) fun _ h => h
  | cons c rest =>
    unfold Session.visit
    dsimp only
    split
    next => exact .quiet (List.append_nil _).symm rfl (by simp) fun _ h => h
    next ctx hctx =>
      refine .quiet rfl (by simp) (by simp) fun d hd => ?_
      exact withContext_known (s := { s with recv := .closing c rest }) hctx d hd

/-- Ending the receive loop closes the session, which hears nothing. -/
theorem Hears.close (htexts : texts evs = []) (hcancels : ∀ c, .cancelHandled c ∉ evs) :
    Hears s (Session.close { s with trace := s.trace ++ evs }).1 [] := by
  have hfirst : Hears s { s with closed := true, trace := s.trace ++ evs } [] :=
    .quiet rfl htexts hcancels fun _ h => h
  exact hfirst.trans (Hears.visit _ _) fun hyes => (visit_closed _ _).trans hyes

/-- The step of a task is heard by nobody. -/
theorem Hears.task {Res : Chunk → String → Outcome F → Prop} {flag : Bool} {closing : Prop}
    {c : String} {ctx : Context} {eff : Effect F} (hctx : s.objs c = some ctx)
    (htask : TaskStep ops Res sid flag closing ctx eff) :
    Hears s (s.applyEffect c eff).1 [] :=
  .quiet (withContext_trace _ _ _ _) (read_of_ofTask htask.ofTask).1
    (fun _ hc => htask.ofTask _ hc) (withContext_known hctx)

theorem Hears.handle {msg : IncomingMessage} {r : Session F × List PoolCall}
    (h : s.handle msg = some r) : Hears s r.1 [msg] := by
  unfold Session.handle at h
  split at h
  next hclosed =>
    cases h
    exact ⟨fun hopen => absurd hopen (by simp [hclosed]), fun _ => Or.inl, fun _ => Or.inl⟩
  next =>
    split at h
    next =>
      cases msg with
      | parseError e =>
        cases h
        exact .of_events rfl rfl (by simp) fun _ => Or.inl
      | cancel m =>
        cases h
        unfold Session.cancel
        split
        next => exact .of_events (List.append_nil _).symm rfl (by simp) fun _ => Or.inl
        next ctx hctx =>
          refine .of_events rfl rfl ?_ fun c hc =>
            Or.inl (withContext_known (objs_of_get? hctx) c hc)
          simp [cancelsIn]
      | text m =>
        cases h
        have hquiet : ∀ ctx : Context, ∀ c, .cancelHandled c ∈ textEvents (F := F) ctx m →
            c ∈ cancelsIn [.text m] := by
          simp [textEvents]
        unfold Session.onText
        split
        next =>
          refine .of_events rfl (textEvents_read _ m).2.2.2 (hquiet _) fun c hc => ?_
          by_cases hcm : c = m.contextId
          · exact Or.inr ⟨m, by simp [textsIn], hcm.symm⟩
          · rw [withContext_objs_ne _ _ _ hcm] at hc
            exact Or.inl hc
        next ctx hctx =>
          refine .of_events rfl (textEvents_read _ m).2.2.2 (hquiet _) fun c hc => ?_
          exact Or.inl (withContext_known (objs_of_get? hctx) c hc)
    next => exact absurd h (by simp)

/-- **What a step of a session hears.** -/
theorem step_hears {a : Action} {r : Session F × List PoolCall} (hready : p.ready = true)
    (h : s.step ops p sid a = some r) : Hears s r.1 a.messages := by
  cases a with
  | handle msg => exact .handle h
  | errorSent ok =>
    simp only [Session.step] at h
    split at h
    next reason hrecv =>
      cases ok with
      | true =>
        cases h
        exact .quiet rfl (by simp) (by simp) fun _ h => h
      | false =>
        cases h
        exact .close (by simp) (by simp)
    next => exact absurd h (by simp)
  | emit c =>
    obtain ⟨ctx, hctx, h⟩ := Option.bind_eq_some_iff.mp h
    obtain ⟨eff, heff, h⟩ := Option.bind_eq_some_iff.mp h
    cases h
    have htask : TaskStep ops (fun _ _ _ => True) sid _ True ctx eff :=
      resume_taskStep hready (fun _ _ _ _ => trivial) heff
    exact .task hctx htask
  | sent c exc =>
    obtain ⟨ctx, hctx, h⟩ := Option.bind_eq_some_iff.mp h
    obtain ⟨eff, heff, h⟩ := Option.bind_eq_some_iff.mp h
    cases h
    have htask : TaskStep ops (fun _ _ _ => True) sid _ True ctx eff := sent_taskStep heff
    exact .task hctx htask
  | disconnect =>
    simp only [Session.step] at h
    split at h
    next =>
      cases h
      have hclose : Hears s (Session.close { s with trace := s.trace ++ [] }).1 [] :=
        .close rfl (by simp)
      rw [List.append_nil] at hclose
      exact hclose
    next => exact absurd h (by simp)
  | closeNext =>
    simp only [Session.step] at h
    split at h
    next c rest hrecv =>
      split at h
      next ctx hctx =>
        split at h
        next =>
          cases h
          exact .visit s rest
        next => exact absurd h (by simp)
      next => exact absurd h (by simp)
    next => exact absurd h (by simp)
  | timeout out =>
    simp only [Session.step] at h
    split at h
    next c rest hrecv =>
      obtain ⟨ctx, hctx, h⟩ := Option.bind_eq_some_iff.mp h
      obtain ⟨eff, heff, h⟩ := Option.bind_eq_some_iff.mp h
      cases h
      have htask : TaskStep ops (fun _ _ _ => True) sid true True ctx eff :=
        kill_taskStep trivial heff
      exact .task hctx htask
    next => exact absurd h (by simp)

end Sessions

/-! ## The program -/

/-- A step of the whole program. -/
inductive WireAct (S F : Type) where
  /-- the receive loop of a connection takes its next frame -/
  | receive (sid : Nat) (raw : String)
  | other (a : DeployAct S F)

/-- The action hands a session a message that no frame was decoded to. -/
def DeployAct.Handles : DeployAct S F → Bool
  | .sess _ (.handle _) => true
  | _ => false

def Deployment.wireStep (ops : AudioOps F) (cfg : Config) (loads : String → LoadsResult)
    (d : Deployment S F) : WireAct S F → Option (Deployment S F)
  | .receive sid raw => (d.server.receive ops loads sid raw).map fun s => { d with server := s }
  | .other a => if a.Handles then none else d.step ops cfg a

/-- What the deployment does in it. -/
def WireAct.deployAct (loads : String → LoadsResult) : WireAct S F → DeployAct S F
  | .receive sid raw =>
    match decode loads raw with
    | .ok msg => .sess sid (.handle msg)
    | .error _ => .sess sid .disconnect
  | .other a => a

/-- The messages that came in on a connection. -/
def messagesOn (loads : String → LoadsResult) (sid : Nat) (acts : List (WireAct S F)) :
    List IncomingMessage :=
  acts.flatMap fun
    | .receive sid' raw => if sid' = sid then (decode loads raw).toOption.toList else []
    | .other _ => []

theorem messagesOn_cons (sid : Nat) (a : WireAct S F) (acts : List (WireAct S F)) :
    messagesOn loads sid (a :: acts) = messagesOn loads sid [a] ++ messagesOn loads sid acts := by
  show List.flatMap _ ([a] ++ acts) = _
  rw [List.flatMap_append]
  rfl

/-- A step of the program is a step of the deployment. -/
theorem wireStep_step {d d' : Deployment S F} {a : WireAct S F}
    (h : d.wireStep ops cfg loads a = some d') :
    d.step ops cfg (a.deployAct loads) = some d' := by
  cases a with
  | receive sid raw =>
    obtain ⟨s, hs, rfl⟩ := Option.map_eq_some_iff.mp h
    unfold Server.receive at hs
    split at hs
    next =>
      split at hs
      next msg hmsg =>
        simp only [WireAct.deployAct, hmsg]
        exact Option.map_eq_some_iff.mpr ⟨s, hs, rfl⟩
      next e he =>
        simp only [WireAct.deployAct, he]
        exact Option.map_eq_some_iff.mpr ⟨s, hs, rfl⟩
    next => exact absurd hs (by simp)
  | other a =>
    simp only [Deployment.wireStep] at h
    split at h
    next => exact absurd h (by simp)
    next => exact h

/-- **The program runs as the deployment does.** -/
theorem run_wire {d d' : Deployment S F} {acts : List (WireAct S F)}
    (hrun : run (Deployment.wireStep ops cfg loads) d acts = some d') :
    run (Deployment.step ops cfg) d (acts.map (WireAct.deployAct loads)) = some d' := by
  induction acts generalizing d with
  | nil => exact hrun
  | cons a acts ih =>
    obtain ⟨t, ht, hrest⟩ := Lib.run_cons_some.mp hrun
    exact Lib.run_cons_some.mpr ⟨t, wireStep_step ht, ih hrest⟩

/-! ## What was handled is what was received -/

/-- The message that an action hands to session `sid`. -/
def DeployAct.messages (sid : Nat) : DeployAct S F → List IncomingMessage
  | .sess sid' a => if sid' = sid then a.messages else []
  | _ => []

/-- A step of the server. -/
theorem server_hears {s s' : Server F} (hwf : s.Wf) {sid' : Nat} {a : Action}
    (h : s.step ops (.sess sid' a) = some s') (sid : Nat) :
    Hears (s.sessions sid) (s'.sessions sid) (if sid' = sid then a.messages else []) := by
  obtain ⟨r, hr, rfl⟩ := Option.map_eq_some_iff.mp h
  show Hears _ (Function.update s.sessions sid' r.1 sid) _
  by_cases hsid : sid' = sid
  · subst hsid
    rw [Function.update_self, if_pos rfl]
    exact step_hears hwf.ready hr
  · rw [Function.update_of_ne (Ne.symm hsid), if_neg hsid]
    exact .refl _

/-- A step of the deployment. -/
theorem deploy_hears {d d' : Deployment S F} {a : DeployAct S F} (hwf : d.server.Wf)
    (h : d.step ops cfg a = some d') (sid : Nat) :
    Hears (d.server.sessions sid) (d'.server.sessions sid) (a.messages sid) := by
  rcases deploy_cases h with ⟨b, s, hdoes, hb, rfl⟩ | ⟨_, _, _, _, rfl, -, -, -, rfl⟩
  · cases hdoes with
    | sess sid' act => exact server_hears hwf hb sid
    | start | finish =>
      obtain ⟨p, -, rfl⟩ := Option.map_eq_some_iff.mp hb
      exact .refl _
  · exact .refl _

theorem deploy_wf {d d' : Deployment S F} {a : DeployAct S F} (hwf : d.server.Wf)
    (h : d.step ops cfg a = some d') : d'.server.Wf := by
  rcases deploy_cases h with ⟨b, s, -, hb, rfl⟩ | ⟨_, _, _, _, -, -, -, -, rfl⟩
  · exact step_serverWf hwf hb
  · exact hwf

theorem deploy_closed {d d' : Deployment S F} {a : DeployAct S F} (hwf : d.server.Wf)
    (h : d.step ops cfg a = some d') {sid : Nat}
    (hclosed : (d.server.sessions sid).closed = true) :
    (d'.server.sessions sid).closed = true := by
  rcases deploy_cases h with ⟨b, s, -, hb, rfl⟩ | ⟨_, _, _, _, -, -, -, -, rfl⟩
  · exact step_closed hwf hb hclosed
  · exact hclosed

/-- The messages of a step of the program are those its frame was decoded to. -/
theorem messages_deployAct {d d' : Deployment S F} {a : WireAct S F}
    (h : d.wireStep ops cfg loads a = some d') (sid : Nat) :
    (a.deployAct loads).messages sid = messagesOn loads sid [a] := by
  cases a with
  | receive sid' raw =>
    cases hmsg : decode loads raw with
    | ok msg =>
      simp [WireAct.deployAct, DeployAct.messages, messagesOn, hmsg, Action.messages,
        Except.toOption]
    | error e =>
      simp [WireAct.deployAct, DeployAct.messages, messagesOn, hmsg, Action.messages,
        Except.toOption]
  | other a =>
    simp only [Deployment.wireStep] at h
    split at h
    next => exact absurd h (by simp)
    next hno =>
      cases a with
      | sess sid' act =>
        cases act with
        | handle msg => exact absurd rfl hno
        | _ => simp [WireAct.deployAct, DeployAct.messages, messagesOn, Action.messages]
      | _ => rfl

/-- **What the sessions have handled is what was received**: up to the end of a connection the
texts of its session are those that came in on it, and every cancel that was handled and every
context that was opened goes back to a frame. -/
theorem run_hears {d d' : Deployment S F} {acts : List (WireAct S F)} (hwf : d.server.Wf)
    (hrun : run (Deployment.wireStep ops cfg loads) d acts = some d') (sid : Nat) :
    Hears (d.server.sessions sid) (d'.server.sessions sid) (messagesOn loads sid acts) ∧
      ((d.server.sessions sid).closed = true → (d'.server.sessions sid).closed = true) := by
  induction acts generalizing d with
  | nil =>
    obtain rfl : d = d' := Option.some.inj hrun
    exact ⟨.refl _, id⟩
  | cons a acts ih =>
    obtain ⟨t, ht, hrest⟩ := Lib.run_cons_some.mp hrun
    have hstep := wireStep_step ht
    obtain ⟨hlater, hclosed⟩ := ih (deploy_wf hwf hstep) hrest
    have hfirst := deploy_hears hwf hstep sid
    rw [messages_deployAct ht] at hfirst
    refine ⟨?_, fun h => hclosed (deploy_closed hwf hstep h)⟩
    rw [messagesOn_cons]
    exact hfirst.trans hlater hclosed

/-- No other connection was sent a text for a context of this one. -/
def OwnContexts (loads : String → LoadsResult) (sid : Nat) (acts : List (WireAct S F)) : Prop :=
  ∀ m ∈ textsIn (messagesOn loads sid acts), ∀ sid', sid' ≠ sid →
    ∀ m' ∈ textsIn (messagesOn loads sid' acts), m'.contextId ≠ m.contextId

theorem OwnContexts.ownIds {n : ℕ+} {workers : List (SupertonicWorker S)}
    {acts : List (WireAct S F)} {d : Deployment S F}
    (hrun : run (Deployment.wireStep ops cfg loads) (Deployment.init F n workers) acts = some d)
    {sid : Nat} (hown : OwnContexts loads sid acts) : d.server.OwnIds sid := by
  have hfrom : ∀ sid' c, (d.server.sessions sid').objs c ≠ none →
      ∃ m ∈ textsIn (messagesOn loads sid' acts), m.contextId = c := by
    intro sid' c hc
    rcases (run_hears (init_serverWf n) hrun sid').1.known c hc with hold | hnew
    · exact absurd rfl hold
    · exact hnew
  intro c hc sid' hne
  by_contra hother
  obtain ⟨m, hm, hmc⟩ := hfrom sid c hc
  obtain ⟨m', hm', hmc'⟩ := hfrom sid' c hother
  exact hown m hm sid' hne m' hm' (hmc'.trans hmc.symm)

end SupertonicServer
