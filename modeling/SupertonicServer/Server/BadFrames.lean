import SupertonicServer.Server.Frames

/-!
# Frames that are no messages

Frames that are no messages are inserted into a run of the server, on any connections and at
any points. `harmless_iff` says that they cost one error frame each and nothing else, exactly
when `json.loads` raises nothing uncaught on any frame received: the run without them, in
which the error frames are not sent either, is a run of the server through the same pool and
the same contexts.
-/

namespace SupertonicServer

open Wire (ServerFrame LoadsResult LoadsRaises decode encodeError)
open Audio (AudioOps)
open Pool
open Lib (run run_append_some run_cons_some run_inv run_trans)

variable {F : Type}

/-! ## The simulation -/

/-- Two connections that differ in error frames only; `pending` says that the first is sending
one the second knows nothing of. -/
structure SameSession (pending : Bool) (s s₀ : Session F) : Prop where
  same : s.withoutErrors = s₀.withoutErrors
  opened : s.closed = false
  recv : if pending then (∃ reason, s.recv = .sendingError reason) ∧ s₀.recv = .listening
    else s.recv = s₀.recv

structure SameServer (pending : Nat → Bool) (s s₀ : Server F) : Prop where
  wf : s.Wf
  wf₀ : s₀.Wf
  pool : s.pool = s₀.pool
  sessions : ∀ sid, SameSession (pending sid) (s.sessions sid) (s₀.sessions sid)

section Simulation

variable {ops : AudioOps F} {loads : String → LoadsResult} {pending : Nat → Bool}
  {s s₀ s' : Server F}

theorem SameSession.opened₀ {b : Bool} {s s₀ : Session F} (h : SameSession b s s₀) :
    s₀.closed = false :=
  (congrArg Session.closed h.same).symm.trans h.opened

/-- A listening connection is sending nothing. -/
theorem SameSession.listening {b : Bool} {s s₀ : Session F} (h : SameSession b s s₀)
    (hrecv : s.recv = .listening) : b = false ∧ s₀.recv = .listening := by
  have hboth := h.recv
  cases b with
  | true =>
    obtain ⟨⟨reason, hsend⟩, -⟩ := hboth
    rw [hrecv] at hsend
    exact absurd hsend (by simp)
  | false => exact ⟨rfl, (hrecv.symm.trans hboth).symm⟩

theorem SameServer.update (h : SameServer pending s s₀) (sid : Nat) {b : Bool}
    {x x₀ : Session F} (hx : SameSession b x x₀) (sid' : Nat) :
    SameSession (Function.update pending sid b sid') (Function.update s.sessions sid x sid')
      (Function.update s₀.sessions sid x₀ sid') := by
  by_cases hs : sid' = sid
  · rw [hs, Function.update_self, Function.update_self, Function.update_self]
    exact hx
  · rw [Function.update_of_ne hs, Function.update_of_ne hs, Function.update_of_ne hs]
    exact h.sessions sid'

/-- A step that has nothing to do with error frames is one of both servers. -/
theorem SameServer.quiet (h : SameServer pending s s₀) {sid : Nat} {act : Action}
    (ha : act.Quiet (s.sessions sid)) (ha₀ : act.Quiet (s₀.sessions sid))
    (hstep : s.step ops (.sess sid act) = some s') :
    ∃ s₀', s₀.step ops (.sess sid act) = some s₀' ∧ SameServer pending s' s₀' := by
  have hwf := step_serverWf h.wf hstep
  obtain ⟨r, hr, rfl⟩ := Option.map_eq_some_iff.mp hstep
  -- both steps are the one step of the session without its error frames
  have hq := quiet_step ops sid (h.wf.sessions sid) h.wf.ready ha
  have hq₀ := quiet_step ops sid (h.wf₀.sessions sid) h.wf₀.ready ha₀
  have hsame := hq.same
  rw [hr, (h.sessions sid).same, h.pool, ← hq₀.same] at hsame
  obtain ⟨r₀, hr₀, heq⟩ := Option.map_eq_some_iff.mp hsame.symm
  obtain ⟨hsession, hcalls⟩ := Prod.mk.inj heq
  have hstep₀ : s₀.step ops (.sess sid act) = some
      { pool := s₀.pool.calls r₀.2, sessions := Function.update s₀.sessions sid r₀.1 } := by
    simp only [Server.step, hr₀, Option.map_some]
  refine ⟨_, hstep₀, hwf, step_serverWf h.wf₀ hstep₀, ?_, fun sid' => ?_⟩
  · show s.pool.calls r.2 = s₀.pool.calls r₀.2
    rw [h.pool]
    exact congrArg _ hcalls.symm
  · have hmoved := hq.unheard r hr
    have hmoved₀ := hq₀.unheard r₀ hr₀
    have hboth : SameSession (pending sid) r.1 r₀.1 := by
      refine ⟨hsession.symm, hmoved.closed.trans (h.sessions sid).opened, ?_⟩
      rw [hmoved.recv, hmoved₀.recv]
      exact (h.sessions sid).recv
    have hupdate := h.update sid hboth sid'
    rwa [Function.update_eq_self] at hupdate

/-- One connection of each server moves, and nothing else. -/
theorem SameServer.both (h : SameServer pending s s₀) {sid : Nat} {b : Bool}
    {x x₀ : Session F} (hx : SameSession b x x₀)
    (hwf : Server.Wf { s with sessions := Function.update s.sessions sid x })
    (hwf₀ : Server.Wf { s₀ with sessions := Function.update s₀.sessions sid x₀ }) :
    SameServer (Function.update pending sid b)
      { s with sessions := Function.update s.sessions sid x }
      { s₀ with sessions := Function.update s₀.sessions sid x₀ } :=
  ⟨hwf, hwf₀, h.pool, h.update sid hx⟩

/-- Both receive a frame that is no message. -/
theorem SameServer.bad (h : SameServer pending s s₀) {sid : Nat} {raw : String}
    {e : Wire.ParseError} (hmsg : decode loads raw = .ok (.parseError e))
    (hwf : ∀ t t' : Server F, t.Wf → t.receive ops loads sid raw = some t' → t'.Wf)
    (hstep : s.receive ops loads sid raw = some s') :
    ∃ s₀', s₀.receive ops loads sid raw = some s₀' ∧ SameServer pending s' s₀' := by
  have hrecv := receive_listening hstep
  have hsid := h.sessions sid
  obtain ⟨hquiet, hrecv₀⟩ := hsid.listening hrecv
  have hwf' := hwf _ _ h.wf hstep
  rw [receive_bad ops hsid.opened hrecv hmsg] at hstep
  cases hstep
  have hstep₀ := receive_bad ops hsid.opened₀ hrecv₀ hmsg
  have hx : SameSession (pending sid) ((s.sessions sid).sendError e.reason)
      ((s₀.sessions sid).sendError e.reason) := by
    refine ⟨?_, hsid.opened, ?_⟩
    · rw [sendError_withoutErrors, sendError_withoutErrors]
      exact hsid.same
    · rw [hquiet]
      rfl
  have hboth := h.both hx hwf' (hwf _ _ h.wf₀ hstep₀)
  rw [Function.update_eq_self] at hboth
  exact ⟨_, hstep₀, hboth⟩

/-- The first receives such a frame, the second nothing. -/
theorem SameServer.inserted (h : SameServer pending s s₀) {sid : Nat} {raw : String}
    {e : Wire.ParseError} (hmsg : decode loads raw = .ok (.parseError e)) (hwf : s'.Wf)
    (hstep : s.receive ops loads sid raw = some s') :
    SameServer (Function.update pending sid true) s' s₀ := by
  have hrecv := receive_listening hstep
  have hsid := h.sessions sid
  obtain ⟨-, hrecv₀⟩ := hsid.listening hrecv
  rw [receive_bad ops hsid.opened hrecv hmsg] at hstep
  cases hstep
  have hx : SameSession true ((s.sessions sid).sendError e.reason) (s₀.sessions sid) := by
    refine ⟨?_, hsid.opened, ⟨e.reason, rfl⟩, hrecv₀⟩
    rw [sendError_withoutErrors]
    exact hsid.same
  refine ⟨hwf, h.wf₀, h.pool, fun sid' => ?_⟩
  have hupdate := h.update sid hx sid'
  rwa [Function.update_eq_self] at hupdate

/-- The send of an error frame ends that only the first knows of. -/
theorem SameServer.insertedSent (h : SameServer pending s s₀) {sid : Nat}
    (hpending : pending sid = true) (hwf : s'.Wf)
    (hstep : s.step ops (.sess sid (.errorSent true)) = some s') :
    SameServer (Function.update pending sid false) s' s₀ := by
  obtain ⟨reason, hrecv⟩ := errorSent_sending hstep
  have hsid := h.sessions sid
  have hwaiting := hsid.recv
  rw [hpending, if_pos rfl] at hwaiting
  rw [errorSent_step ops hrecv] at hstep
  cases hstep
  have hx : SameSession false ((s.sessions sid).errorOut reason) (s₀.sessions sid) := by
    refine ⟨?_, hsid.opened, hwaiting.2.symm⟩
    rw [errorOut_withoutErrors]
    exact hsid.same
  refine ⟨hwf, h.wf₀, h.pool, fun sid' => ?_⟩
  have hupdate := h.update sid hx sid'
  rwa [Function.update_eq_self] at hupdate

/-- The send of an error frame of both ends. -/
theorem SameServer.errorSent (h : SameServer pending s s₀) {sid : Nat}
    (hpending : pending sid = false)
    (hstep : s.step ops (.sess sid (.errorSent true)) = some s') :
    ∃ s₀', s₀.step ops (.sess sid (.errorSent true)) = some s₀' ∧ SameServer pending s' s₀' := by
  have hwf := step_serverWf h.wf hstep
  obtain ⟨reason, hrecv⟩ := errorSent_sending hstep
  have hsid := h.sessions sid
  have hboth := hsid.recv
  rw [hpending, if_neg (by simp)] at hboth
  rw [errorSent_step ops hrecv] at hstep
  cases hstep
  have hstep₀ := errorSent_step ops (hboth.symm.trans hrecv)
  have hx : SameSession (pending sid) ((s.sessions sid).errorOut reason)
      ((s₀.sessions sid).errorOut reason) := by
    refine ⟨?_, hsid.opened, ?_⟩
    · rw [errorOut_withoutErrors, errorOut_withoutErrors]
      exact hsid.same
    · rw [hpending]
      rfl
  have hdone := h.both hx hwf (step_serverWf h.wf₀ hstep₀)
  rw [Function.update_eq_self] at hdone
  exact ⟨_, hstep₀, hdone⟩

theorem SameServer.exec (h : SameServer pending s s₀) {e : ExecAct F}
    (hstep : s.step ops (.exec e) = some s') :
    ∃ s₀', s₀.step ops (.exec e) = some s₀' ∧ SameServer pending s' s₀' := by
  have hwf := step_serverWf h.wf hstep
  obtain ⟨p, hp, rfl⟩ := Option.map_eq_some_iff.mp hstep
  rw [h.pool] at hp
  have hstep₀ : s₀.step ops (.exec e) = some { s₀ with pool := p } := by
    simp only [Server.step, hp, Option.map_some]
  exact ⟨_, hstep₀, hwf, step_serverWf h.wf₀ hstep₀, rfl, h.sessions⟩

/-- `close` is under way on no connection. -/
theorem SameServer.no_close (h : SameServer pending s s₀) {sid : Nat} :
    s.step ops (.sess sid .closeNext) = none ∧
      ∀ out, s.step ops (.sess sid (.timeout out)) = none := by
  have hno := not_closing (h.wf.sessions sid) (h.sessions sid).opened
  refine ⟨Option.map_eq_none_iff.mpr ?_, fun out => Option.map_eq_none_iff.mpr ?_⟩
  · unfold Session.step
    cases hrecv : (s.sessions sid).recv with
    | closing c rest => exact absurd hrecv (hno c rest)
    | listening | sendingError | closed => rfl
  · unfold Session.step
    cases hrecv : (s.sessions sid).recv with
    | closing c rest => exact absurd hrecv (hno c rest)
    | listening | sendingError | closed => rfl

/-- The frame of a step raises nothing, and if it is inserted it is no message. -/
def WsAct.Tame (loads : String → LoadsResult) : WsAct F → Prop
  | .receive _ inserted raw => ¬ LoadsRaises loads raw ∧ (inserted = true → NoMessage loads raw)
  | _ => True

theorem step_same (h : SameServer pending s s₀) {a : WsAct F} (ha : a.Tame loads)
    (hstep : s.wsStep ops loads a = some s') :
    ∃ s₀', run (Server.wsStep ops loads) s₀ (a.strip pending).1 = some s₀' ∧
      SameServer (a.strip pending).2 s' s₀' := by
  have hwf := wsStep_serverWf h.wf hstep
  have hlift : ∀ {b : WsAct F} {t : Server F → Prop},
      (∃ s₀', s₀.wsStep ops loads b = some s₀' ∧ t s₀') →
      ∃ s₀', run (Server.wsStep ops loads) s₀ [b] = some s₀' ∧ t s₀' := by
    intro b t hone
    obtain ⟨s₀', hb, ht⟩ := hone
    exact ⟨s₀', by rw [Lib.run_singleton]; exact hb, ht⟩
  cases a with
  | receive sid inserted raw =>
    obtain ⟨hraises, hbad⟩ := ha
    cases inserted with
    | true =>
      have hno := hbad rfl
      rcases decode_cases hraises with ⟨m, hmsg⟩ | ⟨m, hmsg⟩ | ⟨e, hmsg⟩
      · exact absurd hmsg (hno.1 m)
      · exact absurd hmsg (hno.2 m)
      -- the second server takes no step
      · exact ⟨s₀, rfl, h.inserted hmsg hwf hstep⟩
    | false =>
      refine hlift (b := .receive sid false raw) ?_
      have hrecv := receive_listening hstep
      have hsid := h.sessions sid
      obtain ⟨-, hrecv₀⟩ := hsid.listening hrecv
      show ∃ s₀', s₀.receive ops loads sid raw = some s₀' ∧ SameServer pending s' s₀'
      rcases decode_cases hraises with ⟨m, hmsg⟩ | ⟨m, hmsg⟩ | ⟨e, hmsg⟩
      · rw [receive_message hrecv₀ hmsg]
        refine h.quiet ⟨hsid.opened, hrecv⟩ ⟨hsid.opened₀, hrecv₀⟩ ?_
        rw [← receive_message hrecv hmsg]
        exact hstep
      · rw [receive_message hrecv₀ hmsg]
        refine h.quiet ⟨hsid.opened, hrecv⟩ ⟨hsid.opened₀, hrecv₀⟩ ?_
        rw [← receive_message hrecv hmsg]
        exact hstep
      · exact h.bad hmsg (fun t t' ht hr => wsStep_serverWf (a := .receive sid false raw) ht hr)
          hstep
  | errorSent sid =>
    cases hpending : pending sid with
    | true =>
      rw [WsAct.strip, if_pos hpending]
      exact ⟨s₀, rfl, h.insertedSent hpending hwf hstep⟩
    | false =>
      rw [WsAct.strip, if_neg (by simp [hpending])]
      exact hlift (b := .errorSent sid) (h.errorSent hpending hstep)
  | emit sid c => exact hlift (b := .emit sid c) (h.quiet trivial trivial hstep)
  | sent sid c => exact hlift (b := .sent sid c) (h.quiet trivial trivial hstep)
  | closeNext sid => exact absurd hstep (by simp [Server.wsStep, h.no_close.1])
  | timeout sid out => exact absurd hstep (by simp [Server.wsStep, h.no_close.2 out])
  | exec e => exact hlift (b := .exec e) (h.exec (show s.step ops (.exec e) = some s' from hstep))

/-- A run with inserted frames is a run without them. -/
theorem run_same {acts : List (WsAct F)} (h : SameServer pending s s₀)
    (hacts : ∀ a ∈ acts, a.Tame loads) (hrun : run (Server.wsStep ops loads) s acts = some s') :
    ∃ s₀' pending', run (Server.wsStep ops loads) s₀ (strip pending acts) = some s₀' ∧
      SameServer pending' s' s₀' := by
  induction acts generalizing pending s s₀ with
  | nil =>
    cases hrun
    exact ⟨s₀, pending, rfl, h⟩
  | cons a acts ih =>
    obtain ⟨t, ht, hrest⟩ := run_cons_some.mp hrun
    obtain ⟨t₀, ht₀, hsame⟩ := step_same h (hacts a List.mem_cons_self) ht
    obtain ⟨s₀', pending', hrun₀, hsame'⟩ :=
      ih hsame (fun b hb => hacts b (List.mem_cons_of_mem a hb)) hrest
    exact ⟨s₀', pending', run_trans ht₀ hrun₀, hsame'⟩

/-! ## The error frames of a run -/

/-- One connection has new reports, the others have not. -/
theorem update_reports {f : Nat → Session F} {sid : Nat} {x : Session F}
    {new : List ServerFrame} (hx : x.reports = (f sid).reports ++ new) (sid' : Nat) :
    (Function.update f sid x sid').reports =
      (f sid').reports ++ if sid = sid' then new else [] := by
  by_cases hs : sid = sid'
  · subst hs
    rw [Function.update_self, if_pos rfl, hx]
  · rw [Function.update_of_ne (Ne.symm hs), if_neg hs, List.append_nil]

/-- None has. -/
theorem update_reports_same {f : Nat → Session F} {sid : Nat} {x : Session F}
    (hx : x.reports = (f sid).reports) (sid' : Nat) :
    (Function.update f sid x sid').reports = (f sid').reports := by
  have hall := update_reports (hx.trans (List.append_nil _).symm) sid'
  rwa [ite_self, List.append_nil] at hall

theorem quiet_reports (ops : AudioOps F) (act : Action) (hwf : s.Wf) {sid : Nat}
    (ha : act.Quiet (s.sessions sid)) (hstep : s.step ops (.sess sid act) = some s')
    (sid' : Nat) : (s'.sessions sid').reports = (s.sessions sid').reports := by
  obtain ⟨r, hr, rfl⟩ := Option.map_eq_some_iff.mp hstep
  have hsame := (quiet_step ops sid (hwf.sessions sid) hwf.ready ha).unheard r hr
  exact update_reports_same hsame.reports sid'

/-- A step owes the connection an error frame exactly if it receives no message on it. -/
theorem step_reports (h : SameServer pending s s₀) {a : WsAct F} (ha : a.Tame loads)
    (hstep : s.wsStep ops loads a = some s') (sid : Nat) :
    (s'.sessions sid).reports =
      (s.sessions sid).reports ++ errorReports loads (received sid [a]) := by
  have hnone : ∀ {t : List ServerFrame}, t = (s.sessions sid).reports →
      t = (s.sessions sid).reports ++ [] := fun ht => ht.trans (List.append_nil _).symm
  cases a with
  | receive sid' inserted raw =>
    have hrecv := receive_listening hstep
    have hopen := (h.sessions sid').opened
    rw [errorReports_receive]
    rcases decode_cases ha.1 with ⟨m, hmsg⟩ | ⟨m, hmsg⟩ | ⟨e, hmsg⟩
    · rw [show errorReports loads [(inserted, raw)] = [] by simp [errorReports, hmsg], ite_self]
      refine hnone (quiet_reports ops (.handle (.text m)) h.wf ⟨hopen, hrecv⟩ ?_ sid)
      rw [← receive_message hrecv hmsg]
      exact hstep
    · rw [show errorReports loads [(inserted, raw)] = [] by simp [errorReports, hmsg], ite_self]
      refine hnone (quiet_reports ops (.handle (.cancel m)) h.wf ⟨hopen, hrecv⟩ ?_ sid)
      rw [← receive_message hrecv hmsg]
      exact hstep
    · rw [show errorReports loads [(inserted, raw)] = [encodeError none e.reason] by
        simp [errorReports, hmsg]]
      have hstep' := hstep
      rw [Server.wsStep, receive_bad ops hopen hrecv hmsg] at hstep'
      cases hstep'
      exact update_reports (sendError_reports hrecv e.reason) sid
  | errorSent sid' =>
    obtain ⟨reason, hrecv⟩ := errorSent_sending hstep
    have hstep' := hstep
    rw [Server.wsStep, errorSent_step ops hrecv] at hstep'
    cases hstep'
    exact hnone (update_reports_same (errorOut_reports hrecv) sid)
  | emit sid' c => exact hnone (quiet_reports ops (.emit c) h.wf trivial hstep sid)
  | sent sid' c => exact hnone (quiet_reports ops (.sent c none) h.wf trivial hstep sid)
  | closeNext sid' => exact absurd hstep (by simp [Server.wsStep, h.no_close.1])
  | timeout sid' out => exact absurd hstep (by simp [Server.wsStep, h.no_close.2 out])
  | exec e =>
    obtain ⟨p, hp, rfl⟩ := Option.map_eq_some_iff.mp
      (show s.step ops (.exec e) = some s' from hstep)
    exact hnone rfl

theorem run_reports {acts : List (WsAct F)} (h : SameServer pending s s₀)
    (hacts : ∀ a ∈ acts, a.Tame loads) (hrun : run (Server.wsStep ops loads) s acts = some s')
    (sid : Nat) :
    (s'.sessions sid).reports =
      (s.sessions sid).reports ++ errorReports loads (received sid acts) := by
  induction acts generalizing pending s s₀ with
  | nil =>
    cases hrun
    exact (List.append_nil _).symm
  | cons a acts ih =>
    obtain ⟨t, ht, hrest⟩ := run_cons_some.mp hrun
    have ha := hacts a List.mem_cons_self
    obtain ⟨t₀, -, hsame⟩ := step_same h ha ht
    rw [ih hsame (fun b hb => hacts b (List.mem_cons_of_mem a hb)) hrest, step_reports h ha ht,
      List.append_assoc, ← errorReports_append, ← received_cons]

/-! ## A frame that raises -/

/-- The exception ends the receive loop and closes the session. -/
theorem raise_closes {sid : Nat} {inserted : Bool} {raw : String}
    (hraises : LoadsRaises loads raw)
    (hstep : s.wsStep ops loads (.receive sid inserted raw) = some s') :
    (s'.sessions sid).closed = true := by
  obtain ⟨exc, hexc⟩ := (Wire.decode_error_iff loads raw).mpr hraises
  have hrecv := receive_listening hstep
  have hstep' : s.step ops (.sess sid .disconnect) = some s' := by
    rw [← hstep]
    simp only [Server.wsStep, Server.receive, hrecv, hexc]
  obtain ⟨r, hr, rfl⟩ := Option.map_eq_some_iff.mp hstep'
  show (Function.update s.sessions sid r.1 sid).closed = true
  rw [Function.update_self]
  simp only [Session.step, hrecv, Option.some.injEq] at hr
  rw [← hr, Session.close, visit_closed]

end Simulation

/-! ## Runs -/

/-- The error frames and nothing else: every connection is open; the error frames are those
owed to the frames received; and the run without the inserted frames ends with the same pool,
and on every connection with the same contexts and the same events of contexts, and the error
frames owed to the frames that were not inserted. -/
structure Harmless (ops : AudioOps F) (loads : String → LoadsResult) (n : ℕ+)
    (acts : List (WsAct F)) (s : Server F) : Prop where
  opened : ∀ sid, (s.sessions sid).closed = false
  reports : ∀ sid, (s.sessions sid).reports = errorReports loads (received sid acts)
  same : ∃ s₀, run (Server.wsStep ops loads) (Server.init F n) (strip (fun _ => false) acts) =
      some s₀ ∧ s.pool = s₀.pool ∧ ∀ sid,
    (s.sessions sid).withoutErrors = (s₀.sessions sid).withoutErrors ∧
    (s₀.sessions sid).reports =
      errorReports loads ((received sid acts).filter fun frame => !frame.1)

/-- **A bad frame harms nobody**: in every run of the server with any frames inserted that are
no messages, they are harmless if and only if `json.loads` raises a `ValueError` or a
`RecursionError` on no frame received. -/
theorem harmless_iff {ops : AudioOps F} {loads : String → LoadsResult} {n : ℕ+}
    {acts : List (WsAct F)} {s : Server F}
    (hbad : ∀ sid raw, .receive sid true raw ∈ acts → NoMessage loads raw)
    (hrun : run (Server.wsStep ops loads) (Server.init F n) acts = some s) :
    Harmless ops loads n acts s ↔
      ∀ sid inserted raw, .receive sid inserted raw ∈ acts → ¬ LoadsRaises loads raw := by
  constructor
  · intro hharmless sid inserted raw hmem hraises
    -- the connection is closed by that frame, and stays closed
    obtain ⟨pre, post, rfl⟩ := List.append_of_mem hmem
    obtain ⟨t, hpre, hrest⟩ := run_append_some hrun
    obtain ⟨t', hstep, hpost⟩ := run_cons_some.mp hrest
    have hwf : t.Wf := run_inv (fun _ _ _ h hs => wsStep_serverWf h hs) (init_serverWf n) hpre
    have hend : s.Wf ∧ (s.sessions sid).closed = true := by
      refine run_inv (I := fun s : Server F => s.Wf ∧ (s.sessions sid).closed = true) ?_
        ⟨wsStep_serverWf hwf hstep, raise_closes hraises hstep⟩ hpost
      intro u a u' hinv hstep'
      obtain ⟨hu, hclosed⟩ := hinv
      obtain ⟨b, hb⟩ := wsStep_step hstep'
      exact ⟨step_serverWf hu hb, step_closed hu hb hclosed⟩
    exact absurd (hharmless.opened sid) (by simp [hend.2])
  · intro hok
    have hacts : ∀ a ∈ acts, a.Tame loads := by
      intro a ha
      cases a with
      | receive sid inserted raw =>
        refine ⟨hok sid inserted raw ha, fun h => ?_⟩
        subst h
        exact hbad sid raw ha
      | errorSent | emit | sent | closeNext | timeout | exec => trivial
    have hinit : SameServer (fun _ => false) (Server.init F n) (Server.init F n) :=
      ⟨init_serverWf n, init_serverWf n, rfl, fun _ => ⟨rfl, rfl, rfl⟩⟩
    obtain ⟨s₀, pending, hrun₀, hsame⟩ := run_same hinit hacts hrun
    refine ⟨fun sid => (hsame.sessions sid).opened, run_reports hinit hacts hrun, s₀, hrun₀,
      hsame.pool, fun sid => ⟨(hsame.sessions sid).same, ?_⟩⟩
    rw [← received_strip sid acts fun _ => false]
    exact run_reports hinit (fun a ha => hacts a (mem_strip ha)) hrun₀ sid

/-! ## Two runs -/

/-- A text frame for the context `x`. -/
@[irreducible] def utteranceFrame : String :=
  "\x7b\"context_id\":\"x\",\"transcript\":\"Hi.\",\"continue\":false," ++
  "\"voice\":\x7b\"mode\":\"id\",\"id\":\"F1\"\x7d,\"output_format\":" ++
  "\x7b\"container\":\"raw\",\"encoding\":\"pcm_s16le\",\"sample_rate\":50\x7d\x7d"

/-- An integer literal of `n` digits. -/
@[irreducible] def intLiteral (n : Nat) : String := String.ofList (List.replicate n '1')

theorem intLiteral_utf8ByteSize (n : Nat) : (intLiteral n).utf8ByteSize = n := by
  unfold intLiteral
  induction n with
  | zero => rfl
  | succ n ih =>
    rw [List.replicate_succ', String.ofList_append, String.utf8ByteSize_append, ih]
    rfl

/-- One digit more than `int` takes from a string. -/
def longLiteral : String := intLiteral 4301

theorem longLiteral_utf8ByteSize : longLiteral.utf8ByteSize = 4301 :=
  intLiteral_utf8ByteSize 4301

/-- What `json.loads` does on these two and on a text that is no JSON. -/
def loadsX (text : String) : LoadsResult :=
  if text = utteranceFrame then
    .value (.obj [("context_id", .str "x"), ("transcript", .str "Hi."), ("continue", .bool false),
      ("voice", .obj [("mode", .str "id"), ("id", .str "F1")]),
      ("output_format", .obj [("container", .str "raw"), ("encoding", .str "pcm_s16le"),
        ("sample_rate", .int 50)])])
  else if text = longLiteral then
    .valueError "Exceeds the limit (4300 digits) for integer string conversion"
  else .jsonDecodeError "Expecting value: line 1 column 1 (char 0)"

theorem decode_utterance :
    decode loadsX utteranceFrame = .ok (.text (textOfX "Hi." false 50)) := by
  unfold decode loadsX
  rw [if_pos (show utteranceFrame = utteranceFrame from rfl)]
  rfl

theorem loads_longLiteral : loadsX longLiteral =
    .valueError "Exceeds the limit (4300 digits) for integer string conversion" := by
  have hne : longLiteral ≠ utteranceFrame := by
    intro heq
    have hsize := congrArg String.utf8ByteSize heq
    rw [longLiteral_utf8ByteSize, utteranceFrame] at hsize
    exact absurd hsize (by decide +kernel)
  unfold loadsX
  rw [if_neg hne, if_pos (show longLiteral = longLiteral from rfl)]

theorem loads_oops :
    loadsX "oops" = .jsonDecodeError "Expecting value: line 1 column 1 (char 0)" := by
  have hne : "oops" ≠ longLiteral := by
    intro heq
    have hsize := congrArg String.utf8ByteSize heq
    rw [longLiteral_utf8ByteSize] at hsize
    exact absurd hsize (by decide)
  have hother : "oops" ≠ utteranceFrame := by
    rw [utteranceFrame]
    decide +kernel
  unfold loadsX
  rw [if_neg hother, if_neg hne]

theorem decode_oops : decode loadsX "oops" = .ok (.parseError
    { reason := "invalid json: Expecting value: line 1 column 1 (char 0)", raw := "oops" }) :=
  Wire.decode_of_jsonDecodeError loads_oops

/-- The text frame opens the context `x`, which a `close` would flag. -/
theorem utterance_received : ∃ t,
    (Server.init Unit 1).wsStep silentOps loadsX (.receive 0 false utteranceFrame) = some t ∧
    (t.sessions 0).closed = false ∧ (t.sessions 0).recv = .listening ∧
    ∃ s, t.step silentOps (.sess 0 .disconnect) = some s ∧ s.pool.cancelled = {"x"} := by
  rw [Server.wsStep, receive_message (s := Server.init Unit 1) rfl decode_utterance]
  exact ⟨_, rfl, rfl, rfl, _, rfl, by decide +kernel⟩

/-- A client sends a text frame, then an integer that is too long. -/
def longLiteralRun : List (WsAct Unit) :=
  [.receive 0 false utteranceFrame, .receive 0 true longLiteral]

/-- The long literal is no message. It closes the connection and cancels the context. -/
theorem long_literal_harms : ∃ s,
    run (Server.wsStep silentOps loadsX) (Server.init Unit 1) longLiteralRun = some s ∧
    NoMessage loadsX longLiteral ∧ (∃ exc, decode loadsX longLiteral = .error exc) ∧
    (s.sessions 0).closed = true ∧ s.pool.cancelled = {"x"} ∧
    ¬ Harmless silentOps loadsX 1 longLiteralRun s := by
  have hdecode := Wire.decode_of_valueError loads_longLiteral
  obtain ⟨t, ht, -, hrecv, s, hs, hflag⟩ := utterance_received
  have hlong : t.wsStep silentOps loadsX (.receive 0 true longLiteral) = some s := by
    rw [Server.wsStep, Server.receive, hrecv, hdecode]
    exact hs
  have hclosed := raise_closes (Or.inl ⟨_, loads_longLiteral⟩) hlong
  refine ⟨s, ?_, ⟨?_, ?_⟩, ⟨_, hdecode⟩, hclosed, hflag, fun h => ?_⟩
  · rw [longLiteralRun, run_cons_some]
    exact ⟨t, ht, by rw [Lib.run_singleton]; exact hlong⟩
  · rw [hdecode]
    exact fun m h => absurd h (by simp)
  · rw [hdecode]
    exact fun m h => absurd h (by simp)
  · rw [h.opened 0] at hclosed
    exact absurd hclosed (by simp)

/-- A client sends a text frame, then something that is no JSON. -/
def oopsRun : List (WsAct Unit) :=
  [.receive 0 false utteranceFrame, .receive 0 true "oops", .errorSent 0]

theorem oops_harmless : ∃ s,
    run (Server.wsStep silentOps loadsX) (Server.init Unit 1) oopsRun = some s ∧
    Harmless silentOps loadsX 1 oopsRun s := by
  obtain ⟨t, ht, hopen, hrecv, -⟩ := utterance_received
  have hoops := receive_bad silentOps hopen hrecv decode_oops
  obtain ⟨u, hu, husend⟩ : ∃ u, t.wsStep silentOps loadsX (.receive 0 true "oops") = some u ∧
      ∃ reason, (u.sessions 0).recv = .sendingError reason := by
    refine ⟨_, hoops, "invalid json: Expecting value: line 1 column 1 (char 0)", ?_⟩
    show (Function.update t.sessions 0 _ 0).recv = _
    rw [Function.update_self]
    rfl
  obtain ⟨reason, hreason⟩ := husend
  have hsent : u.wsStep silentOps loadsX (.errorSent 0) = _ := errorSent_step silentOps hreason
  have hrun : run (Server.wsStep silentOps loadsX) (Server.init Unit 1) oopsRun = some _ :=
    run_cons_some.mpr ⟨t, ht, run_cons_some.mpr ⟨u, hu,
      (Lib.run_singleton u (WsAct.errorSent 0)).trans hsent⟩⟩
  refine ⟨_, hrun, (harmless_iff ?_ hrun).mpr ?_⟩
  · intro sid raw hmem
    obtain ⟨-, rfl⟩ : sid = 0 ∧ raw = "oops" := by simpa [oopsRun] using hmem
    rw [NoMessage, decode_oops]
    exact ⟨fun m h => absurd h (by simp), fun m h => absurd h (by simp)⟩
  · intro sid inserted raw hmem
    rw [← Wire.decode_ok_iff]
    have hraw : raw = utteranceFrame ∨ raw = "oops" := by
      simp only [oopsRun, List.mem_cons, WsAct.receive.injEq, reduceCtorEq, List.not_mem_nil,
        or_false] at hmem
      exact hmem.imp (fun h => h.2.2) fun h => h.2.2
    rcases hraw with rfl | rfl
    · exact ⟨_, decode_utterance⟩
    · exact ⟨_, decode_oops⟩

end SupertonicServer
