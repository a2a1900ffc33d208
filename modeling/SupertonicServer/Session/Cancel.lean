import SupertonicServer.Session.Life

/-!
# After a cancel

`_cancel` raises the flag of the context, and only the end of the emit task takes it down
again. So from the cancel on the task either runs under the flag or is past its loop
(`CancelInv`), and in both cases it starts no chunk, no `done` and no synthesis. Text that
arrives later is queued behind the end of the task and never looked at.
-/

namespace SupertonicServer

open Coalescer (Chunk)
open Wire (IncomingMessage IncomingCancel IncomingText)
open Audio (AudioOps)
open Pool
open Lib (run)

variable {F : Type}

/-- The send of a chunk or of `done` starts, or a chunk is submitted for synthesis. -/
def Event.StartsOutput : Event F → Prop
  | .sendStarted (.chunk _ _) => True
  | .sendStarted (.done _) => True
  | .submitted _ _ _ => True
  | _ => False

def Event.IsCancel : Event F → Prop
  | .cancelHandled _ => True
  | _ => False

/-- Under the flag, or past the loop. -/
def View.Silenced (v : View F) : Prop := v.flag = true ∨ v.ctx.emit.PastLoop

/-- A cancelled context is silenced, and nothing was started since. -/
structure CancelInv (v : View F) : Prop where
  silenced : (∃ e ∈ v.trace, e.IsCancel) → v.Silenced
  quiet : v.trace.Pairwise fun a b => a.IsCancel → ¬ b.StartsOutput

section Preservation

variable {ops : AudioOps F} {Res : Chunk → String → Outcome F → Prop} {sid : Nat}

/-- A silenced task starts nothing. -/
theorem TaskStep.starts_nothing {v : View F} {closing : Prop} {eff : Effect F}
    (h : TaskStep ops Res sid v.flag closing v.ctx eff) (hsil : v.Silenced) :
    ∀ e ∈ eff.events, ¬ e.StartsOutput := by
  have hflag : v.ctx.emit.PastLoop ∨ v.flag = true := hsil.symm
  cases h with
  | eof q hemit _ hf | submitted chunk q hemit _ hf | shipped chunk _ _ hemit _ hf =>
    -- these need a clear flag inside the loop
    rw [hemit, hf] at hflag
    exact absurd hflag (by simp [EmitPc.PastLoop])
  | chunkSent pcm rest hemit =>
    intro e he
    rcases mem_ship_events he with he | ⟨_, _, hf, rfl⟩
    · rw [List.mem_singleton.mp he]
      exact id
    · rw [hemit, hf] at hflag
      exact absurd hflag (by simp [EmitPc.PastLoop])
  | killedInSend pcm rest _ _ out =>
    intro e he
    rw [List.mem_singleton.mp he]
    cases out <;> exact id
  | _ => simp [Context.finish, Context.crash, Event.StartsOutput, Wire.encodeError]

/-- A silenced task stays silenced: only its end clears the flag. -/
theorem TaskStep.silenced {v : View F} {closing : Prop} {eff : Effect F}
    (h : TaskStep ops Res sid v.flag closing v.ctx eff) (hsil : v.Silenced) :
    (v.after eff).Silenced := by
  by_cases hend : eff.ctx.emit = .finished
  · right
    show eff.ctx.emit.PastLoop
    rw [hend]
    trivial
  · rcases hsil with hflag | hpast
    · left
      show (if eff.ctx.emit = .finished then false else v.flag) = true
      rw [if_neg hend, hflag]
    · right
      -- past the loop a step ends the task or starts the error frame
      cases h <;> simp_all [EmitPc.PastLoop, View.after, Context.finish, Context.crash]

theorem TaskStep.no_cancel {v : View F} {closing : Prop} {eff : Effect F}
    (h : TaskStep ops Res sid v.flag closing v.ctx eff) :
    ∀ e ∈ eff.events, ¬ e.IsCancel := by
  intro e he hcancel
  have hof := h.ofTask e he
  cases e <;> simp_all [Event.OfTask, Event.IsCancel]

theorem textEvents_starts_nothing (ctx : Context) (msg : IncomingText) :
    ∀ e ∈ textEvents (F := F) ctx msg, ¬ e.StartsOutput ∧ ¬ e.IsCancel := by
  intro e he
  rcases List.mem_cons.mp he with rfl | he
  · exact ⟨id, id⟩
  · obtain ⟨item, -, rfl⟩ := List.mem_map.mp he
    exact ⟨id, id⟩

theorem born_cancelInv (msg : IncomingText) : CancelInv (View.born F msg) where
  silenced := by
    intro hcancelled
    obtain ⟨e, he, hcancel⟩ := hcancelled
    exact absurd hcancel (textEvents_starts_nothing _ _ e he).2
  quiet := List.pairwise_of_forall_mem_list fun _ _ e he _ =>
    (textEvents_starts_nothing _ _ e he).1

/-- One more block of events: it starts nothing after a cancel of the past, and none of its
own events follows a cancel of its own. -/
theorem CancelInv.append {v v' : View F} (h : CancelInv v) {evs : List (Event F)}
    (htrace : v'.trace = v.trace ++ evs)
    (hsil : v.Silenced ∨ (∃ e ∈ evs, e.IsCancel) → v'.Silenced)
    (hold : v.Silenced → ∀ e ∈ evs, ¬ e.StartsOutput)
    (hnew : ∀ a ∈ evs, ∀ e ∈ evs, a.IsCancel → ¬ e.StartsOutput) : CancelInv v' where
  silenced := by
    intro hcancelled
    obtain ⟨e, he, hcancel⟩ := hcancelled
    rw [htrace] at he
    rcases List.mem_append.mp he with he | he
    · exact hsil (Or.inl (h.silenced ⟨e, he, hcancel⟩))
    · exact hsil (Or.inr ⟨e, he, hcancel⟩)
  quiet := by
    rw [htrace]
    refine List.pairwise_append.mpr ⟨h.quiet, List.pairwise_of_forall_mem_list hnew, ?_⟩
    intro a ha e he hcancel
    exact hold (h.silenced ⟨a, ha, hcancel⟩) e he

/-- Every step in the life of a context keeps the invariant. -/
theorem Life.cancelInv {v v' : View F} (hlife : Life ops Res sid v v') (h : CancelInv v) :
    CancelInv v' := by
  cases hlife with
  | text msg hid =>
    have hevs := textEvents_starts_nothing (F := F) v.ctx msg
    refine h.append rfl ?_ (fun _ e he => (hevs e he).1) (fun _ _ e he _ => (hevs e he).1)
    intro hwhy
    rcases hwhy with hsil | ⟨e, he, hcancel⟩
    · exact hsil
    · exact absurd hcancel (hevs e he).2
  | cancel =>
    exact h.append rfl (fun _ => Or.inl rfl) (by simp [Event.StartsOutput])
      (by simp [Event.StartsOutput])
  | closing =>
    exact h.append rfl (fun _ => Or.inl rfl) (by simp [Event.StartsOutput])
      (by simp [Event.StartsOutput])
  | task eff htask =>
    refine h.append rfl ?_ htask.starts_nothing
      (fun a ha e _ hcancel => absurd hcancel (htask.no_cancel a ha))
    intro hwhy
    rcases hwhy with hsil | ⟨e, he, hcancel⟩
    · exact htask.silenced hsil
    · exact absurd hcancel (htask.no_cancel e he)

theorem Lives.cancelInv {v : View F} (h : Lives ops Res sid v) : CancelInv v := by
  induction h with
  | born msg => exact born_cancelInv msg
  | step _ hlife ih => exact hlife.cancelInv ih

end Preservation

/-- An open session that knows the context records its cancel. -/
theorem handle_cancel_trace {s : Session F} {c : String} (hopen : s.closed = false)
    (hrecv : s.recv = .listening) (hknown : s.get? c ≠ none) :
    ∃ r, s.handle (.cancel ⟨c⟩) = some r ∧ r.2 = [.cancel c] ∧
      r.1.trace = s.trace ++ [.cancelHandled c, .put c none] := by
  obtain ⟨ctx, hctx⟩ := Option.ne_none_iff_exists'.mp hknown
  refine ⟨s.cancel c, ?_, ?_, ?_⟩
  · simp [Session.handle, hopen, hrecv]
  · simp [Session.cancel, hctx]
  · simp [Session.cancel, hctx]

/-- **Cancel safety**: in every run of a session on its own pool, once a cancel of `c` has
been handled no chunk and no `done` of `c` is sent any more and nothing of `c` is submitted
for synthesis. -/
theorem cancel_safe {ops : AudioOps F} {sid : Nat} {n : ℕ+} {acts : List (SoloAct F)}
    {w : Solo F} (hrun : run (Solo.step ops sid) (Solo.init F n) acts = some w) {c : String}
    {pre post : List (Event F)} (htrace : w.session.trace = pre ++ .cancelHandled c :: post) :
    ∀ e ∈ post, e.contextId? = some c → ¬ e.StartsOutput := by
  intro e he hid
  have hinv := run_soloInv_any hrun
  have hmem : Event.cancelHandled c ∈ w.session.trace := by rw [htrace]; simp
  obtain ⟨ctx, hctx⟩ := Option.ne_none_iff_exists'.mp (hinv.wf.trace _ hmem c rfl)
  have hquiet := (hinv.lives c ctx hctx).cancelInv.quiet
  have hsplit : (w.view c ctx).trace =
      ofContext c pre ++ .cancelHandled c :: ofContext c post := by
    show ofContext c w.session.trace = _
    rw [htrace, ofContext_append, ofContext_cons_self rfl]
  rw [hsplit] at hquiet
  -- of the pairs in the history, those that begin with this cancel
  have hpost := (List.pairwise_cons.mp (List.pairwise_append.mp hquiet).2.1).1
  exact hpost e (mem_ofContext.mpr ⟨he, hid⟩) trivial

/-- The context is cancelled while its first chunk is with the worker. -/
def cancelInSynth : List (SoloAct Unit) :=
  [.sess (.handle (.text (textOfX "Hi. " true 50))), .sess (.emit "x"), .sess (.emit "x"),
    .sess (.handle (.cancel ⟨"x"⟩)), .exec (.start ⟨0, "x"⟩),
    .exec (.finish ⟨0, "x"⟩ oneSample), .sess (.emit "x"), .sess (.emit "x")]

theorem cancel_safe_in_synth : ∃ w pre post, runX cancelInSynth = some w ∧
    w.session.trace = pre ++ .cancelHandled "x" :: post ∧ post.length = 2 ∧
    ∀ e ∈ post, e.contextId? = some "x" → ¬ e.StartsOutput := by
  obtain ⟨w, hrun⟩ : ∃ w, runX cancelInSynth = some w := ⟨_, rfl⟩
  have htrace : w.session.trace =
      [.textHandled (textOfX "Hi. " true 50), .put "x" (some "Hi. ".toList),
        .submitted "x" "Hi. ".toList "F1"] ++ .cancelHandled "x" ::
        [.put "x" none, .synthesized "x" "Hi. ".toList oneSample] :=
    runX_reads (fun w => w.session.trace) hrun rfl
  exact ⟨w, _, _, hrun, htrace, rfl, cancel_safe hrun htrace⟩

end SupertonicServer
