import SupertonicServer.Server.Client
import SupertonicServer.Session.Account

/-!
# Reading `context_stats`

What the numbers of `context_stats` mean, in every state of a server, for a session whose ids
no other session uses: the text a context was sent is what has been to the worker, then what
waits in the queue, then `pending_chars` characters (`stats_account`). So a finished context
that reports an empty queue and no pending characters has had all its text voiced, and one that
has not reports it.
-/

namespace SupertonicServer

open Coalescer (Chunk)
open Audio (AudioOps)
open Pool
open Lib (run)

variable {F : Type} {ops : AudioOps F} {sid : Nat}

/-- The life of a context nobody has stopped, on a server that leaves its session alone. -/
theorem Alone.lives {s : Server F} {w : Solo F} (h : Alone ops sid s w) {c : String}
    {ctx : Context} (hctx : (s.sessions sid).objs c = some ctx)
    (hstop : ¬ Stopped c (s.sessions sid).trace) :
    ctx.contextId = c ∧ ∃ v : View F, Lives ops (fun _ _ _ => True) sid v ∧ v.ctx = ctx ∧
      v.trace = ofContext c (s.sessions sid).trace ∧ ¬ Stopped v.ctx.contextId v.trace := by
  rw [← h.session] at hctx hstop ⊢
  obtain rfl := h.inv.wf.ids c ctx hctx
  refine ⟨rfl, w.view ctx.contextId ctx, h.inv.lives _ ctx hctx, rfl, rfl, ?_⟩
  rw [Solo.view, stopped_ofContext]
  exact hstop

/-- An entry of `context_stats` is about a context of the table. -/
theorem mem_contextStats {s : Session F} {e : ContextStats} (h : e ∈ s.contextStats) :
    ∃ c ctx, s.get? c = some ctx ∧ e = ctx.stats := by
  obtain ⟨c, hc, he⟩ := List.mem_filterMap.mp h
  obtain ⟨ctx, hctx, rfl⟩ := Option.map_eq_some_iff.mp he
  refine ⟨c, ctx, ?_, rfl⟩
  rw [Session.get?, if_pos hc]
  exact hctx

/-- Pending is what is in the queue, and the chunk at the worker. -/
theorem pending_cases (ctx : Context) :
    ctx.pending = ctx.queue ∨
      ctx.emit ≠ .finished ∧ ∃ chunk, ctx.pending = some chunk :: ctx.queue := by
  unfold Context.pending
  cases ctx.emit <;> simp

/-- **What `context_stats` reports is all that is left**: in every run of a server, for every
entry of a session with ids of its own, unless the context was cancelled or closed: its
`queue_depth` items are those in the queue of the context and its `pending_chars` characters
those in the buffer of the coalescer, and the text of the frames of the context is the text that
has been to the worker, then that of the chunk at the worker (before the task is finished) and
of those items, then those characters; and the voice is that of its first frame. -/
theorem stats_account {n : ℕ+} {acts : List (ServerAct F)} {s : Server F}
    (hrun : run (Server.step ops) (Server.init F n) acts = some s) (hown : s.OwnIds sid)
    {e : ContextStats} (he : e ∈ (s.sessions sid).contextStats)
    (hstop : ¬ Stopped e.contextId (s.sessions sid).trace) :
    ∃ ctx, (s.sessions sid).get? e.contextId = some ctx ∧
      e.queueDepth = ctx.queue.length ∧ e.pendingChars = ctx.coalescer.buf.length ∧
      transcripts (texts (ofContext e.contextId (s.sessions sid).trace)) =
        (voiced (ofContext e.contextId (s.sessions sid).trace)).flatten ++
          itemsText ctx.pending ++ ctx.coalescer.buf ∧
      (ctx.pending = ctx.queue ∨
        e.finished = false ∧ ∃ chunk, ctx.pending = some chunk :: ctx.queue) ∧
      ∃ first, (texts (ofContext e.contextId (s.sessions sid).trace)).head? = some first ∧
        e.voiceId = first.voice.id := by
  obtain ⟨w, -, halone⟩ := run_alone (flagsOwn_of_ownIds hrun hown) hrun
  obtain ⟨c, ctx, hget, rfl⟩ := mem_contextStats he
  have hctx := objs_of_get? hget
  have hid : ctx.stats.contextId = c := (halone.wf.sessions sid).ids c ctx hctx
  rw [hid] at hstop ⊢
  obtain ⟨-, v, hlives, rfl, htrace, hlive⟩ := halone.lives hctx hstop
  rw [← htrace]
  refine ⟨v.ctx, hget, rfl, rfl, hlives.text_account hlive, ?_, ?_⟩
  · refine (pending_cases v.ctx).imp id fun h => ⟨?_, h.2⟩
    exact decide_eq_false h.1
  · obtain ⟨first, hfirst, hvoice, -⟩ := hlives.heard.first
    exact ⟨first, hfirst, hvoice⟩

/-- One chunk waits in the queue, and three characters in the buffer. -/
def waitingRun : List (ServerAct Unit) := [.sess 0 (.handle (.text (textOfX "Hi. You" true 50)))]

theorem stats_account_waiting : ∃ s ctx,
    run (Server.step silentOps) (Server.init Unit 2) waitingRun = some s ∧
    (s.sessions 0).contextStats = [⟨"x", "F1", 3, 1, false⟩] ∧
    (s.sessions 0).get? "x" = some ctx ∧ ctx.queue.length = 1 ∧ ctx.coalescer.buf.length = 3 ∧
    transcripts (texts (ofContext "x" (s.sessions 0).trace)) =
      itemsText ctx.pending ++ ctx.coalescer.buf := by
  obtain ⟨s, hrun⟩ := Option.isSome_iff_exists.mp
    (show (run (Server.step silentOps) (Server.init Unit 2) waitingRun).isSome = true by
      decide +kernel)
  have hentry := Lib.run_reads (f := fun s => (s.sessions 0).contextStats)
    (b := [⟨"x", "F1", 3, 1, false⟩]) hrun (by decide +kernel)
  have hvoiced := Lib.run_reads (f := fun s => voiced (ofContext "x" (s.sessions 0).trace))
    (b := []) hrun (by decide +kernel)
  have hstop := Lib.run_reads (f := fun s => decide (Stopped "x" (s.sessions 0).trace))
    (b := false) hrun (by decide +kernel)
  have hown : s.OwnIds 0 := by
    intro c _ sid hne
    rw [run_idle (by simp [waitingRun, hne]) hrun]
    rfl
  obtain ⟨ctx, hget, hdepth, hchars, htext, -⟩ :=
    stats_account hrun hown (by rw [hentry]; exact List.mem_singleton_self _)
      (of_decide_eq_false hstop)
  rw [hvoiced] at htext
  exact ⟨s, ctx, hrun, hentry, hget, hdepth.symm, hchars.symm, htext⟩

end SupertonicServer
