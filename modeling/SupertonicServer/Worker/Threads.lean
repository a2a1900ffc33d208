import SupertonicServer.Lib.Run
import SupertonicServer.Worker.Basic

/-!
# A call on its thread

A worker says of itself that it is not thread-safe, and the pool can put two calls on it at
one time. So here a call of `synthesize` is taken apart: the interpreter switches threads only
between the reads and writes of the two dicts and the calls into the catalog, each of which is
a step (`CallPc.step`) in a world of its own, and within a call into the model, which is two:
inference releases the interpreter lock. If two calls meet in the model of a worker, nothing is
known of what they return, then or later.

Undisturbed the steps come to `synthesize` (`call_alone`). Disturbed, but by no other call in
the model, they come to the same result, up to when a style was looked up: whatever other
threads do to the dicts in between, the worker holds no style but those that were loaded for
their voices (`StylesLoaded`), so a call ends as one without a cache may end (`Answers`,
`step_callOk`). What the threads can spoil for each other are the hit counts: of two writes that
follow two reads one is lost.
-/

namespace SupertonicServer.Worker

open Coalescer (Chunk)
open Lib (run)
open Pool (Outcome)
open Voices (getVoice)

variable {S F : Type}

/-- Where a call of `synthesize` stands. -/
inductive CallPc (S F : Type) where
  /-- before `_style_cache.get` -/
  | called
  /-- before `get_voice` -/
  | missed
  /-- before `_tts.get_voice_style` -/
  | listed
  /-- in it -/
  | loading
  /-- before `_style_cache[voice_name] = cached` -/
  | loaded (style : S)
  /-- before `_style_hits.get` -/
  | styled (style : S)
  /-- before `_style_hits[voice_name] = hits + 1` -/
  | counted (style : S) (hits : Nat)
  /-- before `_tts.synthesize` -/
  | found (style : S)
  /-- in it -/
  | speaking (style : S)
  | ended (outcome : Outcome F)

/-- The next operation takes the call into the model. -/
def CallPc.enters : CallPc S F → Bool
  | .listed => true
  | .found _ => true
  | _ => false

variable (cfg : Config)

/-- The next operation of a call, on the worker as it is. -/
def CallPc.step (text : Chunk) (voiceName : String) (st : CallPc S F × SupertonicWorker S)
    (world : World S F) : Option (CallPc S F × SupertonicWorker S) :=
  let (pc, w) := st
  match pc with
  | .called =>
    match w.styleCache voiceName with
    | some style => some (.styled style, w)
    | none => some (.missed, w)
  | .missed =>
    match getVoice world.repr world.fs voiceName.toList cfg.cacheDir with
    | .error e => some (.ended (.error (errorText world.repr e)), w)
    | .ok _ => some (.listed, w)
  | .listed => some (.loading, w.enter)
  | .loading =>
    match if w.tts.met then world.tts.metStyle else world.tts.getVoiceStyle voiceName with
    | .error message => some (.ended (.error message), w.leave)
    | .ok style => some (.loaded style, w.leave)
  | .loaded style => some (.styled style, w.store voiceName style)
  | .styled style => some (.counted style (w.styleHits voiceName), w)
  | .counted style hits => some (.found style, w.setHits voiceName (hits + 1))
  | .found style => some (.speaking style, w.enter)
  | .speaking style =>
    if w.tts.met then some (.ended (toResult world world.tts.metSpeech), w.leave)
    else some (.ended (speak cfg world text style), w.leave)
  | .ended _ => none

/-! ## Undisturbed -/

/-- A call that finds the model free meets nobody. -/
theorem enter_met {w : SupertonicWorker S} (hmet : w.tts.met = false) (hcalls : w.tts.calls = 0) :
    w.enter.tts.met = false := by
  simp [SupertonicWorker.enter, hmet, hcalls]

/-- And it leaves the model as it was. -/
theorem enter_leave {w : SupertonicWorker S} (hfree : w.tts = .free) : w.enter.leave = w := by
  obtain ⟨providers, styleCache, styleHits, warm, tts⟩ := w
  obtain rfl : tts = .free := hfree
  rfl

/-- A style is counted and spoken in. -/
theorem styled_alone (world : World S F) (text : Chunk) (voiceName : String) (style : S)
    {w : SupertonicWorker S} (hfree : w.tts = .free) :
    run (CallPc.step cfg text voiceName) (.styled style, w) (List.replicate 4 world) =
      some (.ended (speak cfg world text style),
        w.setHits voiceName (w.styleHits voiceName + 1)) := by
  obtain ⟨providers, styleCache, styleHits, warm, tts⟩ := w
  obtain rfl : tts = .free := hfree
  rfl

/-- **Undisturbed, a call is `synthesize`**: it ends with its outcome, and leaves the worker
as `synthesize` leaves it. -/
theorem call_alone (world : World S F) (text : Chunk) (voiceName : String)
    {w : SupertonicWorker S} (hfree : w.tts = .free) :
    ∃ n, run (CallPc.step cfg text voiceName) (.called, w) (List.replicate n world) =
      some (.ended (w.synthesize cfg world text voiceName).1,
        (w.synthesize cfg world text voiceName).2) := by
  have hstep : ∀ {st last : CallPc S F × SupertonicWorker S} {n : Nat}
      (st' : CallPc S F × SupertonicWorker S),
      CallPc.step cfg text voiceName st world = some st' →
      run (CallPc.step cfg text voiceName) st' (List.replicate n world) = some last →
      run (CallPc.step cfg text voiceName) st (List.replicate (n + 1) world) = some last := by
    intro st last n st' hfirst hrest
    rw [List.replicate_succ, Lib.run_cons, hfirst]
    exact hrest
  cases hcached : w.styleCache voiceName with
  | some style =>
    refine ⟨5, ?_⟩
    rw [show w.synthesize cfg world text voiceName =
        (speak cfg world text style, w.setHits voiceName (w.styleHits voiceName + 1)) by
      simp [SupertonicWorker.synthesize, SupertonicWorker.getStyle, Lib.Memo.get, hcached]]
    exact hstep _ (by simp [CallPc.step, hcached])
      (styled_alone cfg world text voiceName style hfree)
  | none =>
    cases hvoice : getVoice world.repr world.fs voiceName.toList cfg.cacheDir with
    | error e =>
      refine ⟨2, ?_⟩
      rw [show w.synthesize cfg world text voiceName =
          (.error (errorText world.repr e), w) by
        simp [SupertonicWorker.synthesize, SupertonicWorker.getStyle, Lib.Memo.get, hcached,
          fetchStyle, hvoice]]
      exact hstep (.missed, w) (by simp [CallPc.step, hcached])
        (hstep _ (by simp [CallPc.step, hvoice]) rfl)
    | ok voice =>
      -- in the model, where nobody else is
      have hmet : w.enter.tts.met = false :=
        enter_met (congrArg TtsUse.met hfree) (congrArg TtsUse.calls hfree)
      cases hload : world.tts.getVoiceStyle voiceName with
      | error message =>
        refine ⟨4, ?_⟩
        rw [show w.synthesize cfg world text voiceName = (.error message, w) by
          simp [SupertonicWorker.synthesize, SupertonicWorker.getStyle, Lib.Memo.get, hcached,
            fetchStyle, hvoice, hload]]
        exact hstep (.missed, w) (by simp [CallPc.step, hcached])
          (hstep (.listed, w) (by simp [CallPc.step, hvoice])
            (hstep (.loading, w.enter) rfl
              (hstep _ (by simp [CallPc.step, hmet, hload, enter_leave hfree]) rfl)))
      | ok style =>
        refine ⟨9, ?_⟩
        rw [show w.synthesize cfg world text voiceName =
            (speak cfg world text style,
              (w.store voiceName style).setHits voiceName (w.styleHits voiceName + 1)) by
          simp [SupertonicWorker.synthesize, SupertonicWorker.getStyle, Lib.Memo.get, hcached,
            fetchStyle, hvoice, hload, SupertonicWorker.store]]
        exact hstep (.missed, w) (by simp [CallPc.step, hcached])
          (hstep (.listed, w) (by simp [CallPc.step, hvoice])
            (hstep (.loading, w.enter) rfl
              (hstep (.loaded style, w) (by simp [CallPc.step, hmet, hload, enter_leave hfree])
                (hstep _ rfl
                  (styled_alone cfg world text voiceName style
                    (w := w.store voiceName style) hfree)))))

/-! ## Disturbed -/

variable (Worlds : World S F → Prop)

/-- The catalog lists the voice, in one of the worlds. -/
def Listed (voiceName : String) : Prop :=
  ∃ world voice, Worlds world ∧
    getVoice world.repr world.fs voiceName.toList cfg.cacheDir = .ok voice

/-- The style is one that is loaded for the voice, in one of the worlds. -/
def Loads (voiceName : String) (style : S) : Prop :=
  Listed cfg Worlds voiceName ∧
    ∃ world, Worlds world ∧ world.tts.getVoiceStyle voiceName = .ok style

/-- How a call without a cache may end. -/
inductive Answers (text : Chunk) (voiceName : String) : Outcome F → Prop where
  | unlisted {world : World S F} {e : Voices.CatalogError} (hworld : Worlds world)
      (herror : getVoice world.repr world.fs voiceName.toList cfg.cacheDir = .error e) :
      Answers text voiceName (.error (errorText world.repr e))
  | unloaded {world : World S F} {message : String} (hlisted : Listed cfg Worlds voiceName)
      (hworld : Worlds world) (herror : world.tts.getVoiceStyle voiceName = .error message) :
      Answers text voiceName (.error message)
  | spoken {world : World S F} {style : S} (hstyle : Loads cfg Worlds voiceName style)
      (hworld : Worlds world) : Answers text voiceName (speak cfg world text style)

/-- A worker holds no style but those loaded for their voices. -/
def StylesLoaded (w : SupertonicWorker S) : Prop :=
  ∀ voiceName style, w.styleCache voiceName = some style → Loads cfg Worlds voiceName style

/-- What holds of a worker in whose model no two calls have met. -/
structure Kept (w : SupertonicWorker S) : Prop where
  styles : StylesLoaded cfg Worlds w
  apart : w.tts.met = false

/-- A call has got no further than it may. -/
def CallOk (text : Chunk) (voiceName : String) : CallPc S F → Prop
  | .called => True
  | .missed => True
  | .listed => Listed cfg Worlds voiceName
  | .loading => Listed cfg Worlds voiceName
  | .loaded style => Loads cfg Worlds voiceName style
  | .styled style => Loads cfg Worlds voiceName style
  | .counted style _ => Loads cfg Worlds voiceName style
  | .found style => Loads cfg Worlds voiceName style
  | .speaking style => Loads cfg Worlds voiceName style
  | .ended outcome => Answers cfg Worlds text voiceName outcome

variable {cfg Worlds}

theorem StylesLoaded.store {w : SupertonicWorker S} (h : StylesLoaded cfg Worlds w)
    {voiceName : String} {style : S} (hstyle : Loads cfg Worlds voiceName style) :
    StylesLoaded cfg Worlds (w.store voiceName style) := by
  intro d held hheld
  by_cases hd : d = voiceName
  · subst hd
    obtain rfl : style = held := by
      simpa [SupertonicWorker.store] using hheld
    exact hstyle
  · refine h d held ?_
    simpa [SupertonicWorker.store, Function.update_of_ne hd] using hheld

/-- **What a step of a call keeps**, on a worker other threads may be using, if it does not enter
the model while one of them is there. -/
theorem step_callOk {text : Chunk} {voiceName : String} {pc pc' : CallPc S F}
    {w w' : SupertonicWorker S} {world : World S F} (hworld : Worlds world)
    (hw : Kept cfg Worlds w) (hpc : CallOk cfg Worlds text voiceName pc)
    (henter : pc.enters = true → w.tts.calls = 0)
    (hstep : CallPc.step cfg text voiceName (pc, w) world = some (pc', w')) :
    Kept cfg Worlds w' ∧ CallOk cfg Worlds text voiceName pc' := by
  have hentered : w.tts.calls = 0 → Kept cfg Worlds w.enter := fun hcalls =>
    ⟨hw.styles, enter_met hw.apart hcalls⟩
  have hleft : Kept cfg Worlds w.leave := ⟨hw.styles, hw.apart⟩
  cases pc with
  | called =>
    simp only [CallPc.step] at hstep
    split at hstep
    next style hcached =>
      cases hstep
      exact ⟨hw, hw.styles voiceName style hcached⟩
    next =>
      cases hstep
      exact ⟨hw, trivial⟩
  | missed =>
    simp only [CallPc.step] at hstep
    split at hstep
    next e hvoice =>
      cases hstep
      exact ⟨hw, .unlisted hworld hvoice⟩
    next voice hvoice =>
      cases hstep
      exact ⟨hw, world, voice, hworld, hvoice⟩
  | listed =>
    cases hstep
    exact ⟨hentered (henter rfl), hpc⟩
  | loading =>
    simp only [CallPc.step, hw.apart, Bool.false_eq_true, if_false] at hstep
    split at hstep
    next message hload =>
      cases hstep
      exact ⟨hleft, .unloaded hpc hworld hload⟩
    next style hload =>
      cases hstep
      exact ⟨hleft, hpc, world, hworld, hload⟩
  | loaded style =>
    cases hstep
    exact ⟨⟨hw.styles.store hpc, hw.apart⟩, hpc⟩
  | styled style =>
    cases hstep
    exact ⟨hw, hpc⟩
  | counted style hits =>
    cases hstep
    exact ⟨⟨hw.styles, hw.apart⟩, hpc⟩
  | found style =>
    cases hstep
    exact ⟨hentered (henter rfl), hpc⟩
  | speaking style =>
    simp only [CallPc.step, hw.apart, Bool.false_eq_true, if_false] at hstep
    cases hstep
    exact ⟨hleft, .spoken hpc hworld⟩
  | ended outcome => exact absurd hstep (by simp [CallPc.step])

/-- In a world that stays as it is there is one way to end. -/
theorem answers_iff_plain {world : World S F} {text : Chunk} {voiceName : String}
    {outcome : Outcome F} :
    Answers cfg (· = world) text voiceName outcome ↔
      outcome = synthesizePlain cfg world text voiceName := by
  constructor
  · intro h
    unfold synthesizePlain fetchStyle
    cases h with
    | unlisted hworld herror =>
      subst hworld
      rw [herror]
    | unloaded hlisted hworld herror =>
      obtain ⟨_, voice, rfl, hvoice⟩ := hlisted
      subst hworld
      rw [hvoice]
      dsimp only
      rw [herror]
    | spoken hstyle hworld =>
      obtain ⟨⟨_, voice, rfl, hvoice⟩, _, rfl, hload⟩ := hstyle
      subst hworld
      rw [hvoice]
      dsimp only
      rw [hload]
  · intro h
    unfold synthesizePlain fetchStyle at h
    cases hvoice : getVoice world.repr world.fs voiceName.toList cfg.cacheDir with
    | error e =>
      rw [hvoice] at h
      rw [h]
      exact .unlisted rfl hvoice
    | ok voice =>
      have hlisted : Listed cfg (· = world) voiceName := ⟨world, voice, rfl, hvoice⟩
      rw [hvoice] at h
      dsimp only at h
      cases hload : world.tts.getVoiceStyle voiceName with
      | error message =>
        rw [hload] at h
        rw [h]
        exact .unloaded hlisted rfl hload
      | ok style =>
        rw [hload] at h
        rw [h]
        exact .spoken ⟨hlisted, world, rfl, hload⟩ rfl

end SupertonicServer.Worker
