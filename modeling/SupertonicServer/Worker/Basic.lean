import SupertonicServer.Audio.Array
import SupertonicServer.Lib.Memo
import SupertonicServer.Pool.Basic
import SupertonicServer.Voices.Catalog

/-!
# The worker

`SupertonicWorker` of `worker.py`, one call at a time: the cache of voice styles with its hit
counts, `synthesize` and `warmup`. What a call finds around it is its `World`: the directory
of the voices and the model, which may answer otherwise at another time. A style is what
`get_voice_style` returns, of any type `S`; the audio of the model has at most two axes of a
length other than 1 (it documents `(1, N)`), so a result is one-dimensional (`ndim_toMono`).

The cache is a memo table (`Lib.Memo`), and everything about it is read off there: what a call
uses is the first style that was found for its voice (`synthesize_after`), and where the world
stays as it is a worker answers as one that has no cache (`outcomes_eq_plain`).
-/

namespace SupertonicServer.Worker

open Coalescer (Chunk)
open Audio (NdArray SynthResult nativeSr toMono)
open Lib (Memo)
open Pool (Outcome)
open Voices (CatalogError FileSystem Voice getVoice listVoices)

variable {S F : Type}

/-! ## What a worker calls -/

/-- The audio the model returns. -/
structure Speech (F : Type) where
  wav : NdArray F
  axes : (wav.shape.filter (· ≠ 1)).length ≤ 2

/-- `supertonic.TTS`. The last two are what its methods come to if two calls have met in it, of
which nothing is promised. -/
structure Tts (S F : Type) where
  getVoiceStyle : (voiceName : String) → Except String S
  synthesize : (text : Chunk) → (lang : String) → (voiceStyle : S) → (totalSteps : Int) →
    (speed : ℚ) → Except String (Speech F)
  metStyle : Except String S
  metSpeech : Except String (Speech F)

/-- What a call finds: how Python prints a string and the cache directory, numpy's mean, the
files and the model. -/
structure World (S F : Type) where
  repr : List Char → String
  reprDir : Option String → String
  mean : List F → F
  fs : FileSystem
  tts : Tts S F

/-- The arguments of `SupertonicWorker`. -/
structure Config where
  cacheDir : Option String
  totalSteps : Int
  speed : ℚ
  lang : String

/-- How an exception of the catalog prints; a `KeyError` prints the `repr` of its message. -/
def errorText (repr : List Char → String) : CatalogError → String
  | .valueError message => message
  | .keyError message => repr message.toList

/-- What `_get_style` does where nothing is cached: the catalog is asked first, for its
message. -/
def fetchStyle (cfg : Config) (world : World S F) (voiceName : String) : Except String S :=
  match getVoice world.repr world.fs voiceName.toList cfg.cacheDir with
  | .error e => .error (errorText world.repr e)
  | .ok _ => world.tts.getVoiceStyle voiceName

/-- What `synthesize` makes of the answer of the model. -/
def toResult (world : World S F) : Except String (Speech F) → Outcome F
  | .error message => .error message
  | .ok speech => .ok { wavF32 := (toMono world.mean speech.wav).data, sampleRate := nativeSr }

/-- What `synthesize` does with the style. -/
def speak (cfg : Config) (world : World S F) (text : Chunk) (style : S) : Outcome F :=
  toResult world (world.tts.synthesize text cfg.lang style cfg.totalSteps cfg.speed)

/-- A worker without a cache. -/
def synthesizePlain (cfg : Config) (world : World S F) (text : Chunk) (voiceName : String) :
    Outcome F :=
  match fetchStyle cfg world voiceName with
  | .error message => .error message
  | .ok style => speak cfg world text style

/-! ## The worker -/

/-- How many calls are in the model of a worker, and whether two have ever met there: `TTS`, like
the worker, is not for two threads at one time. -/
structure TtsUse where
  calls : Nat
  met : Bool

/-- Nobody is in the model, and no two have met there. -/
def TtsUse.free : TtsUse := { calls := 0, met := false }

/-- `SupertonicWorker`; `providers` are those its model was loaded with, and `tts` is how that is
being used. -/
structure SupertonicWorker (S : Type) where
  providers : List String
  styleCache : Memo String S
  styleHits : String → Nat
  warm : Bool
  tts : TtsUse

/-- What `__init__` makes. -/
def SupertonicWorker.init (S : Type) (providers : List String) : SupertonicWorker S :=
  { providers := providers, styleCache := Memo.empty String S, styleHits := fun _ => 0,
    warm := false, tts := .free }

/-- `is_ready`. -/
def SupertonicWorker.isReady (w : SupertonicWorker S) : Bool := w.warm

/-- `_style_hit_count`. -/
def SupertonicWorker.styleHitCount (w : SupertonicWorker S) (voiceName : String) : Nat :=
  w.styleHits voiceName

/-- `_style_cache[voice_name] = style`. -/
def SupertonicWorker.store (w : SupertonicWorker S) (voiceName : String) (style : S) :
    SupertonicWorker S :=
  { w with styleCache := Function.update w.styleCache voiceName (some style) }

/-- `_style_hits[voice_name] = hits`. -/
def SupertonicWorker.setHits (w : SupertonicWorker S) (voiceName : String) (hits : Nat) :
    SupertonicWorker S :=
  { w with styleHits := Function.update w.styleHits voiceName hits }

/-- A call enters the model. -/
def SupertonicWorker.enter (w : SupertonicWorker S) : SupertonicWorker S :=
  { w with tts := { calls := w.tts.calls + 1, met := w.tts.met || w.tts.calls != 0 } }

/-- It comes back from it. -/
def SupertonicWorker.leave (w : SupertonicWorker S) : SupertonicWorker S :=
  { w with tts := { w.tts with calls := w.tts.calls - 1 } }

/-- `_get_style`. -/
def SupertonicWorker.getStyle (cfg : Config) (world : World S F) (w : SupertonicWorker S)
    (voiceName : String) : Except String S × SupertonicWorker S :=
  match w.styleCache.get voiceName (fetchStyle cfg world voiceName) with
  | (.error message, styleCache) => (.error message, { w with styleCache := styleCache })
  | (.ok style, styleCache) =>
    let w := { w with styleCache := styleCache }
    (.ok style, w.setHits voiceName (w.styleHits voiceName + 1))

def SupertonicWorker.synthesize (cfg : Config) (world : World S F) (w : SupertonicWorker S)
    (text : Chunk) (voiceName : String) : Outcome F × SupertonicWorker S :=
  match w.getStyle cfg world voiceName with
  | (.error message, w) => (.error message, w)
  | (.ok style, w) => (speak cfg world text style, w)

/-- `_WARMUP_TEXT`. -/
def warmupText : Chunk := "नमस्ते।".toList

/-- `warmup`: the message of what it raises, if it raises, and the worker afterwards. -/
def SupertonicWorker.warmup (cfg : Config) (world : World S F) (w : SupertonicWorker S) :
    Except String Unit × SupertonicWorker S :=
  if w.warm then (.ok (), w)
  else
    match listVoices world.fs cfg.cacheDir with
    | .error e => (.error (errorText world.repr e), w)
    | .ok [] =>
      (.error s!"cannot warmup: no voice styles found (cache_dir={world.reprDir cfg.cacheDir})", w)
    | .ok (voice :: _) =>
      match w.synthesize cfg world warmupText (String.ofList voice.name) with
      | (.error message, w) => (.error message, w)
      | (.ok _, w) => (.ok (), { w with warm := true })

/-! ## One call -/

section

variable (cfg : Config) (world : World S F) (w : SupertonicWorker S) (text : Chunk)
  (voiceName d : String)

/-- What `_get_style` returns is the answer of the table. -/
theorem getStyle_style : (w.getStyle cfg world voiceName).1 =
    (w.styleCache.get voiceName (fetchStyle cfg world voiceName)).1 := by
  unfold SupertonicWorker.getStyle
  split
  next h => rw [h]
  next h => rw [h]

theorem getStyle_cache : (w.getStyle cfg world voiceName).2.styleCache =
    (w.styleCache.get voiceName (fetchStyle cfg world voiceName)).2 := by
  unfold SupertonicWorker.getStyle
  split
  next h => rw [h]
  next h => rw [h]; rfl

/-- A call that gets its style is a hit, also the first. -/
theorem getStyle_hits : (w.getStyle cfg world voiceName).2.styleHitCount d =
    w.styleHitCount d +
      if voiceName = d ∧ (Lib.found (w.getStyle cfg world voiceName).1).isSome then 1 else 0 := by
  rw [getStyle_style]
  unfold SupertonicWorker.getStyle
  split
  next h => simp [h, Lib.found, SupertonicWorker.styleHitCount]
  next style cache h =>
    show Function.update w.styleHits voiceName (w.styleHits voiceName + 1) d = _
    rw [h]
    by_cases hd : voiceName = d
    · subst hd
      simp [Lib.found, SupertonicWorker.styleHitCount]
    · rw [Function.update_of_ne (Ne.symm hd), if_neg (fun h => hd h.1)]
      rfl

/-- A call with the style it gets. -/
theorem synthesize_outcome : (w.synthesize cfg world text voiceName).1 =
    (w.getStyle cfg world voiceName).1.bind (speak cfg world text) := by
  unfold SupertonicWorker.synthesize
  split
  next h => rw [h]; rfl
  next h => rw [h]; rfl

theorem synthesize_worker : (w.synthesize cfg world text voiceName).2 =
    (w.getStyle cfg world voiceName).2 := by
  unfold SupertonicWorker.synthesize
  split
  next h => rw [h]
  next h => rw [h]

/-- A call alone goes into the model and comes back. -/
theorem synthesize_tts : (w.synthesize cfg world text voiceName).2.tts = w.tts := by
  rw [synthesize_worker]
  unfold SupertonicWorker.getStyle
  split
  next => rfl
  next => rfl

theorem synthesizePlain_eq : synthesizePlain cfg world text voiceName =
    (fetchStyle cfg world voiceName).bind (speak cfg world text) := by
  unfold synthesizePlain
  cases fetchStyle cfg world voiceName <;> rfl

end

/-! ## One call after another -/

/-- A call of `synthesize`, with what it finds. -/
structure Call (S F : Type) where
  world : World S F
  text : Chunk
  voiceName : String

variable (cfg : Config)

/-- The worker after some calls. -/
def SupertonicWorker.after (w : SupertonicWorker S) (calls : List (Call S F)) :
    SupertonicWorker S :=
  calls.foldl (fun w c => (w.synthesize cfg c.world c.text c.voiceName).2) w

/-- What they return. -/
def SupertonicWorker.outcomes (w : SupertonicWorker S) : List (Call S F) → List (Outcome F)
  | [] => []
  | c :: calls =>
    let (outcome, w) := w.synthesize cfg c.world c.text c.voiceName
    outcome :: SupertonicWorker.outcomes w calls

theorem outcomes_append (w : SupertonicWorker S) (calls : List (Call S F)) (c : Call S F) :
    w.outcomes cfg (calls ++ [c]) = w.outcomes cfg calls ++
      [((w.after cfg calls).synthesize cfg c.world c.text c.voiceName).1] := by
  induction calls generalizing w with
  | nil => rfl
  | cons d calls ih =>
    show _ :: SupertonicWorker.outcomes cfg _ (calls ++ [c]) = _
    rw [ih]
    rfl

theorem after_append (w : SupertonicWorker S) (calls : List (Call S F)) (c : Call S F) :
    w.after cfg (calls ++ [c]) =
      ((w.after cfg calls).synthesize cfg c.world c.text c.voiceName).2 := by
  simp [SupertonicWorker.after]

theorem after_tts (w : SupertonicWorker S) (calls : List (Call S F)) :
    (w.after cfg calls).tts = w.tts := by
  induction calls generalizing w with
  | nil => rfl
  | cons c calls ih => exact (ih _).trans (synthesize_tts cfg c.world w c.text c.voiceName)

/-- What a call asks of the table of styles. -/
def Call.request (c : Call S F) : String × Except String S :=
  (c.voiceName, fetchStyle cfg c.world c.voiceName)

theorem after_cache (w : SupertonicWorker S) (calls : List (Call S F)) :
    (w.after cfg calls).styleCache = w.styleCache.after (calls.map (Call.request cfg)) := by
  induction calls generalizing w with
  | nil => rfl
  | cons c calls ih =>
    have hstep : (w.synthesize cfg c.world c.text c.voiceName).2.styleCache =
        (w.styleCache.get (c.request cfg).1 (c.request cfg).2).2 := by
      rw [synthesize_worker, getStyle_cache]
      rfl
    rw [List.map_cons, Memo.after, List.foldl_cons, ← Memo.after, ← hstep]
    exact ih _

/-- **A voice keeps its style.** After any calls, in any worlds, a call ends as one that speaks
in the style found first for its voice; what the catalog and the model say of the voice now
counts only if none has been found. -/
theorem synthesize_after (w : SupertonicWorker S) (calls : List (Call S F)) (c : Call S F) :
    ((w.after cfg calls).synthesize cfg c.world c.text c.voiceName).1 =
      (((w.styleCache c.voiceName).or
        (Lib.firstFound c.voiceName (calls.map (Call.request cfg)))).elim
          (fetchStyle cfg c.world c.voiceName) .ok).bind (speak cfg c.world c.text) := by
  rw [synthesize_outcome, getStyle_style, after_cache, Lib.answer_after]

/-- The outcomes are those of the styles the table answers with. -/
theorem outcomes_eq (w : SupertonicWorker S) (calls : List (Call S F)) :
    w.outcomes cfg calls =
      List.zipWith (fun (c : Call S F) style => style.bind (speak cfg c.world c.text)) calls
        (w.styleCache.answers (calls.map (Call.request cfg))) := by
  induction calls generalizing w with
  | nil => rfl
  | cons c calls ih =>
    have hcache : (w.synthesize cfg c.world c.text c.voiceName).2.styleCache =
        (w.styleCache.get (c.request cfg).1 (c.request cfg).2).2 := by
      rw [synthesize_worker, getStyle_cache]
      rfl
    rw [SupertonicWorker.outcomes, List.map_cons, Memo.answers, List.zipWith_cons_cons]
    dsimp only
    rw [ih, hcache, synthesize_outcome, getStyle_style]
    rfl

/-- **The cache is not noticed** where the world stays as it is. -/
theorem outcomes_eq_plain (providers : List String) {world : World S F} {calls : List (Call S F)}
    (hworld : ∀ c ∈ calls, c.world = world) :
    (SupertonicWorker.init S providers).outcomes cfg calls =
      calls.map fun c => synthesizePlain cfg world c.text c.voiceName := by
  have hanswers : (SupertonicWorker.init S providers).styleCache.answers
      (calls.map (Call.request cfg)) = (calls.map (Call.request cfg)).map Prod.snd := by
    refine Lib.answers_eq (f := fetchStyle cfg world) (fun k v h => absurd h (by
      simp [SupertonicWorker.init, Memo.empty])) ?_
    intro r hr
    obtain ⟨c, hc, rfl⟩ := List.mem_map.mp hr
    show fetchStyle cfg c.world c.voiceName = _
    rw [hworld c hc]
    rfl
  rw [outcomes_eq, hanswers, List.map_map, List.zipWith_map_right, List.zipWith_self]
  refine List.map_congr_left fun c hc => ?_
  rw [synthesizePlain_eq, Function.comp_apply, Call.request, hworld c hc]

/-- The arguments a pool gives its workers by default. -/
def defaultConfig : Config := { cacheDir := none, totalSteps := 8, speed := 1, lang := "hi" }

/-- A directory with the file `F1.json`, and a model whose speech is one sample. -/
def oneVoice : World Unit Unit where
  repr := String.ofList
  reprDir _ := "None"
  mean _ := ()
  fs := { home := "", iterdir := fun _ => some [⟨"F1.json".toList, true, "/voices/F1.json"⟩] }
  tts :=
    { getVoiceStyle := fun _ => .ok ()
      synthesize := fun _ _ _ _ _ =>
        .ok { wav := { shape := [1, 1], data := [()], size := rfl }, axes := by decide }
      metStyle := .error "met"
      metSpeech := .error "met" }

/-- Of two calls for the same voice the second takes the style from the cache, and both speak as
without one. -/
theorem outcomes_eq_plain_one_voice :
    (SupertonicWorker.init Unit []).outcomes defaultConfig
        [⟨oneVoice, "Hi.".toList, "F1"⟩, ⟨oneVoice, "Ho.".toList, "F1"⟩] =
      [synthesizePlain defaultConfig oneVoice "Hi.".toList "F1",
        synthesizePlain defaultConfig oneVoice "Ho.".toList "F1"] := by
  refine outcomes_eq_plain defaultConfig [] fun c hc => ?_
  simp only [List.mem_cons, List.not_mem_nil, or_false] at hc
  rcases hc with rfl | rfl
  · rfl
  · rfl

/-- The calls for a voice that get a style. -/
def SupertonicWorker.served (w : SupertonicWorker S) (d : String) : List (Call S F) → Nat
  | [] => 0
  | c :: calls =>
    (if c.voiceName = d ∧ (Lib.found (w.getStyle cfg c.world c.voiceName).1).isSome then 1 else 0) +
      SupertonicWorker.served (w.synthesize cfg c.world c.text c.voiceName).2 d calls

/-- **The hit count of a voice counts the calls that got its style**, one call after another. -/
theorem hits_after (w : SupertonicWorker S) (calls : List (Call S F)) (d : String) :
    (w.after cfg calls).styleHitCount d = w.styleHitCount d + w.served cfg d calls := by
  induction calls generalizing w with
  | nil => rfl
  | cons c calls ih =>
    have hstep := ih (w.synthesize cfg c.world c.text c.voiceName).2
    have hhits := getStyle_hits cfg c.world w c.voiceName d
    rw [← synthesize_worker cfg c.world w c.text] at hhits
    rw [hhits] at hstep
    rw [SupertonicWorker.served, ← Nat.add_assoc]
    exact hstep

/-! ## Warming up -/

/-- The catalog finds the voice it lists first. -/
theorem getVoice_head {repr : List Char → String} {fs : FileSystem} {cacheDir : Option String}
    {voice : Voice} {rest : List Voice} (h : listVoices fs cacheDir = .ok (voice :: rest)) :
    getVoice repr fs voice.name cacheDir = .ok voice := by
  unfold getVoice
  rw [h]
  dsimp only
  rw [List.find?_cons_of_pos (by simp)]

/-- **What warming up comes to**: a worker that has not been warmed up is ready afterwards
exactly if the catalog lists a voice and the model speaks the text in its style; the lookup of
the voice cannot fail. -/
theorem warmup_ok_iff {world : World S F} {w w' : SupertonicWorker S} (hcold : w.warm = false) :
    w.warmup cfg world = (.ok (), w') ↔
      ∃ voice rest style result, listVoices world.fs cfg.cacheDir = .ok (voice :: rest) ∧
        (w.styleCache (String.ofList voice.name)).elim
          (world.tts.getVoiceStyle (String.ofList voice.name)) .ok = .ok style ∧
        speak cfg world warmupText style = .ok result ∧
        w' = { (w.getStyle cfg world (String.ofList voice.name)).2 with warm := true } := by
  have hsynth : ∀ voice rest, listVoices world.fs cfg.cacheDir = .ok (voice :: rest) →
      (w.synthesize cfg world warmupText (String.ofList voice.name)).1 =
        ((w.styleCache (String.ofList voice.name)).elim
          (world.tts.getVoiceStyle (String.ofList voice.name)) .ok).bind
            (speak cfg world warmupText) := by
    intro voice rest hlist
    have hfetch : fetchStyle cfg world (String.ofList voice.name) =
        world.tts.getVoiceStyle (String.ofList voice.name) := by
      unfold fetchStyle
      rw [String.toList_ofList, getVoice_head hlist]
    rw [synthesize_outcome, getStyle_style, Lib.get_answer, hfetch]
  unfold SupertonicWorker.warmup
  rw [if_neg (by simp [hcold])]
  constructor
  · intro h
    split at h
    next => exact absurd h (by simp)
    next => exact absurd h (by simp)
    next voice rest hlist =>
      have hworker := synthesize_worker cfg world w warmupText (String.ofList voice.name)
      split at h
      next => exact absurd h (by simp)
      next result w'' hok =>
        have hout := hsynth voice rest hlist
        rw [hok] at hout hworker
        cases hstyle : (w.styleCache (String.ofList voice.name)).elim
            (world.tts.getVoiceStyle (String.ofList voice.name)) .ok with
        | error e =>
          rw [hstyle] at hout
          exact absurd hout (by simp [Except.bind])
        | ok style =>
          rw [hstyle] at hout
          refine ⟨voice, rest, style, result, hlist, hstyle, hout.symm, ?_⟩
          rw [← hworker]
          exact (Prod.mk.inj h).2.symm
  · intro h
    obtain ⟨voice, rest, style, result, hlist, hstyle, hspeak, rfl⟩ := h
    have hworker := synthesize_worker cfg world w warmupText (String.ofList voice.name)
    have hout := hsynth voice rest hlist
    rw [hstyle, show (Except.ok style).bind (speak cfg world warmupText) = _ from hspeak] at hout
    rw [hlist]
    dsimp only
    split
    next hsplit =>
      rw [hsplit] at hout
      exact absurd hout (by simp)
    next hsplit =>
      rw [hsplit] at hworker
      rw [← hworker]

end SupertonicServer.Worker
