import SupertonicServer.Session.Story

/-!
# The last frame of a context

Read off the story of a context: its delivered frames are chunks, then at most one `done` or
`error`; and `done` means that everything ahead of the first EOF was synthesized and shipped.
-/

namespace SupertonicServer

open Coalescer (Chunk)
open Wire (ServerFrame encodeChunk encodeDone encodeError)
open Audio (AudioOps)
open Pool
open Lib (run)

variable {F : Type}

/-- The chunks ahead of the first EOF. -/
def aheadOfEof : List (Option Chunk) → List Chunk
  | some chunk :: rest => chunk :: aheadOfEof rest
  | none :: _ => []
  | [] => []

theorem aheadOfEof_append (chunks : List Chunk) (items : List (Option Chunk)) :
    aheadOfEof (chunks.map some ++ items) = chunks ++ aheadOfEof items := by
  induction chunks with
  | nil => rfl
  | cons chunk chunks ih => exact congrArg (chunk :: ·) ih

/-- The same for the chunks of a list of shipments. -/
theorem aheadOfEof_shipments {ops : AudioOps F} {sr : Int} (R : List (Shipment ops sr))
    (items : List (Option Chunk)) :
    aheadOfEof (R.map (fun s => some s.chunk) ++ items) =
      R.map Shipment.chunk ++ aheadOfEof items := by
  rw [← aheadOfEof_append, List.map_map]
  rfl

/-- Chunks, then at most one `done` or `error`. -/
def Terminal (c : String) (frames : List ServerFrame) : Prop :=
  ∃ chunks last, frames = chunks ++ last ∧ (∀ f ∈ chunks, IsChunk c f) ∧
    (last = [] ∨ last = [encodeDone c] ∨ ∃ message, last = [encodeError (some c) message])

/-- Everything ahead of the first EOF was synthesized and shipped, nothing else was, and the
answer followed. -/
def Completed (ops : AudioOps F) (c : String) (sr : Int) (tr : List (Event F)) : Prop :=
  ∃ R : List (Shipment ops sr),
    aheadOfEof (puts tr) = R.map Shipment.chunk ∧ none ∈ puts tr ∧
    syntheses tr = R.map Shipment.record ∧
    deliveries tr = R.flatMap (Shipment.sent c) ++ [encodeDone c]

section Reading

variable {ops : AudioOps F} {c : String} {sr : Int} {v : View F}

theorem sent_isChunk {R : List (Shipment ops sr)} :
    ∀ f ∈ R.flatMap (Shipment.sent c), IsChunk c f := by
  intro f hf
  obtain ⟨s, -, hs⟩ := List.mem_flatMap.mp hf
  obtain ⟨pcm, -, rfl⟩ := List.mem_map.mp hs
  exact ⟨pcm, rfl⟩

theorem Story.terminal (h : Story ops c sr v) : Terminal c (deliveries v.trace) := by
  cases h with
  | looping _ hchunks => exact ⟨_, [], (List.append_nil _).symm, hchunks, Or.inl rfl⟩
  | sayingDone _ R q hledger =>
    exact ⟨_, [], (List.append_nil _).symm, hledger.chunks, Or.inl rfl⟩
  | sayingError _ _ hchunks => exact ⟨_, [], (List.append_nil _).symm, hchunks, Or.inl rfl⟩
  | answered _ R q _ _ hdel => exact ⟨_, _, hdel, sent_isChunk, Or.inr (Or.inl rfl)⟩
  | gaveUp _ chunks last hdel hchunks hlast =>
    refine ⟨chunks, last, hdel, hchunks, ?_⟩
    rcases hlast with rfl | ⟨message, rfl⟩
    · exact Or.inl rfl
    · exact Or.inr (Or.inr ⟨message, rfl⟩)

/-- Where `done` was delivered the story has an answer. -/
theorem Story.completed (h : Story ops c sr v) (hdone : encodeDone c ∈ deliveries v.trace) :
    Completed ops c sr v.trace := by
  -- `done` is no chunk
  have hno : ∀ frames : List ServerFrame, (∀ f ∈ frames, IsChunk c f) →
      encodeDone c ∉ frames := by
    intro frames hchunks hmem
    obtain ⟨pcm, hpcm⟩ := hchunks _ hmem
    exact absurd hpcm (by simp [encodeDone, encodeChunk])
  cases h with
  | looping _ hchunks => exact absurd hdone (hno _ hchunks)
  | sayingDone _ R q hledger => exact absurd hdone (hno _ hledger.chunks)
  | sayingError _ _ hchunks => exact absurd hdone (hno _ hchunks)
  | answered _ R q hputs hsyn hdel =>
    refine ⟨R, ?_, ?_, hsyn, hdel⟩
    · rw [hputs, aheadOfEof_shipments]
      exact List.append_nil _
    · rw [hputs]
      simp
  | gaveUp _ chunks last hdel hchunks hlast =>
    rw [hdel] at hdone
    rcases List.mem_append.mp hdone with hmem | hmem
    · exact absurd hmem (hno _ hchunks)
    · rcases hlast with rfl | ⟨message, rfl⟩
      · exact absurd hmem List.not_mem_nil
      · exact absurd (List.mem_singleton.mp hmem) (by simp [encodeDone, encodeError])

end Reading

/-- **Terminal-frame discipline**: in every run of a session on its own pool, the frames of
`c` that reach the client are chunks, then at most one `done` or `error`; and once `done` is
among them, every chunk queued ahead of the first EOF was synthesized and shipped in full,
and no synthesis for `c` ever failed. -/
theorem terminal_discipline {ops : AudioOps F} {sid : Nat} {n : ℕ+} {acts : List (SoloAct F)}
    {w : Solo F} (hrun : run (Solo.step ops sid) (Solo.init F n) acts = some w) (c : String) :
    Terminal c (deliveries (ofContext c w.session.trace)) ∧
    (encodeDone c ∈ deliveries (ofContext c w.session.trace) →
      (∃ ctx, w.session.objs c = some ctx ∧
        Completed ops c ctx.outputSr (ofContext c w.session.trace)) ∧
      ∀ chunk message, (chunk, .error message) ∉ syntheses (ofContext c w.session.trace)) := by
  have hinv := run_soloInv_any hrun
  cases hctx : w.session.objs c with
  | none =>
    -- a context that was never made has no history
    have hnone : ofContext c w.session.trace = [] :=
      ofContext_other fun e he heq => hinv.wf.trace e he c heq hctx
    rw [hnone]
    refine ⟨⟨[], [], rfl, by simp, Or.inl rfl⟩, fun hdone => ?_⟩
    exact absurd hdone List.not_mem_nil
  | some ctx =>
    obtain rfl := hinv.wf.ids c ctx hctx
    have hstory := (hinv.lives _ ctx hctx).told.story
    refine ⟨hstory.terminal, fun hdone => ?_⟩
    have hcomplete := hstory.completed hdone
    refine ⟨⟨ctx, rfl, hcomplete⟩, fun chunk message hmem => ?_⟩
    obtain ⟨R, -, -, hsyn, -⟩ := hcomplete
    have hmem' : (chunk, Except.error message) ∈ R.map Shipment.record := hsyn ▸ hmem
    obtain ⟨s, -, hs⟩ := List.mem_map.mp hmem'
    exact absurd hs (by simp [Shipment.record])

/-- One chunk, synthesized, sent and answered. -/
def oneChunkRun : List (SoloAct Unit) :=
  [.sess (.handle (.text (textOfX "Hi." false 50))), .sess (.emit "x"), .sess (.emit "x"),
    .exec (.start ⟨0, "x"⟩), .exec (.finish ⟨0, "x"⟩ oneSample), .sess (.emit "x"),
    .sess (.sent "x" none), .sess (.emit "x"), .sess (.sent "x" none)]

theorem terminal_discipline_one_chunk : ∃ w, runX oneChunkRun = some w ∧
    deliveries (ofContext "x" w.session.trace) = [encodeChunk "x" [0, 0], encodeDone "x"] ∧
    Terminal "x" (deliveries (ofContext "x" w.session.trace)) ∧
    ∃ ctx, w.session.objs "x" = some ctx ∧
      Completed silentOps "x" ctx.outputSr (ofContext "x" w.session.trace) := by
  obtain ⟨w, hrun⟩ := Option.isSome_iff_exists.mp
    (show (runX oneChunkRun).isSome = true by decide +kernel)
  have hframes : deliveries (ofContext "x" w.session.trace) =
      [encodeChunk "x" [0, 0], encodeDone "x"] :=
    runX_reads (fun w => deliveries (ofContext "x" w.session.trace)) hrun (by decide +kernel)
  have hlaw := terminal_discipline hrun "x"
  exact ⟨w, hrun, hframes, hlaw.1, (hlaw.2 (by rw [hframes]; simp)).1⟩

end SupertonicServer
