import SupertonicServer.Worker.Device
import SupertonicServer.Worker.Threads

/-!
# Starting the pool

`WorkerPool.__init__`, `start` and `stop` of `pool.py`, with the construction of the workers,
which happens one after the other on a thread of its own; what is found while a worker is
built is its `Boot`. A pool becomes ready in one go, when all its workers have been built and
warmed up, or not at all (`start_ok`, `start_error`).
-/

namespace SupertonicServer.Worker

open Lib (run)
open Pool (WorkerPool)
open Voices (Voice listVoices)

variable {S F : Type}

/-- What building one worker finds; `load` is `TTS(auto_download=True)`. -/
structure Boot (S F : Type) where
  gpu : Gpu
  load : Except String Unit
  world : World S F

-- `str.lower`
variable (lower : List Char → List Char)

/-- `SupertonicWorker.__init__`. -/
def create (device : List Char) (boot : Boot S F) (cuda : Cuda) :
    Except String (SupertonicWorker S) × Cuda :=
  match applyDevice lower boot.world.repr boot.gpu cuda device with
  | (.error message, cuda) => (.error message, cuda)
  | (.ok providers, cuda) =>
    match boot.load with
    | .error message => (.error message, cuda)
    | .ok () => (.ok (SupertonicWorker.init S providers), cuda)

/-- The loop of `_build_and_warm`, after `n` rounds. -/
def buildAndWarm (cfg : Config) (device : List Char) (boots : Nat → Boot S F) (cuda : Cuda) :
    Nat → Except String (List (SupertonicWorker S)) × Cuda
  | 0 => (.ok [], cuda)
  | n + 1 =>
    match buildAndWarm cfg device boots cuda n with
    | (.error message, cuda) => (.error message, cuda)
    | (.ok built, cuda) =>
      match create lower device (boots n) cuda with
      | (.error message, cuda) => (.error message, cuda)
      | (.ok w, cuda) =>
        match w.warmup cfg (boots n).world with
        | (.error message, _) => (.error message, cuda)
        | (.ok (), w) => (.ok (built ++ [w]), cuda)

/-- A `WorkerPool` with its workers. -/
structure PoolObject (S F : Type) where
  pool : WorkerPool F
  workers : List (SupertonicWorker S)

/-- `WorkerPool.__init__`. -/
def PoolObject.create (S F : Type) (nWorkers : Int) : Except String (PoolObject S F) :=
  if h : nWorkers < 1 then .error s!"n_workers must be ≥ 1, got {nWorkers}"
  else .ok
    { pool := { WorkerPool.started F ⟨nWorkers.toNat, by omega⟩ with ready := false }
      workers := [] }

/-- `start`. -/
def PoolObject.start (cfg : Config) (device : List Char) (boots : Nat → Boot S F)
    (o : PoolObject S F) (cuda : Cuda) : Except String Unit × PoolObject S F × Cuda :=
  if o.pool.ready then (.ok (), o, cuda)
  else
    match buildAndWarm lower cfg device boots cuda o.pool.nWorkers with
    | (.error message, cuda) => (.error message, o, cuda)
    | (.ok workers, cuda) =>
      (.ok (), { pool := { o.pool with ready := true }, workers := workers }, cuda)

/-- `stop`, which returns when the executor has done all its jobs. -/
def PoolObject.stop (o : PoolObject S F) : Option (PoolObject S F) :=
  if o.pool.queued = [] ∧ o.pool.running = [] then
    some { o with pool := { o.pool with ready := false } }
  else none

/-- `GET /ready`: the status, and the number of workers where it is told. -/
def PoolObject.readyResponse (o : PoolObject S F) : Nat × Option Nat :=
  if o.pool.ready then (200, some o.pool.nWorkers) else (503, none)

/-! ## A worker that has been built -/

variable (cfg : Config) (device : List Char) (Worlds : World S F → Prop)

/-- A worker as `_build_and_warm` leaves it: warmed up, with one voice at hand. -/
structure Warmed (providers : List String) (w : SupertonicWorker S) : Prop where
  warm : w.isReady = true
  providers : w.providers = providers
  tts : w.tts = .free
  voice : ∃ world voice rest style, Worlds world ∧
    listVoices world.fs cfg.cacheDir = .ok (voice :: rest) ∧
    world.tts.getVoiceStyle (String.ofList voice.name) = .ok style ∧
    w.styleCache = Function.update (Lib.Memo.empty String S) (String.ofList voice.name)
      (some style) ∧
    w.styleHits = Function.update (fun _ => 0) (String.ofList voice.name) 1

variable {lower cfg device Worlds}

/-- Its styles are loaded ones. -/
theorem Warmed.kept {providers : List String} {w : SupertonicWorker S}
    (h : Warmed cfg Worlds providers w) : Kept cfg Worlds w := by
  obtain ⟨world, voice, rest, style, hworld, hlist, hload, hcache, -⟩ := h.voice
  refine ⟨?_, congrArg TtsUse.met h.tts⟩
  intro d held hheld
  rw [hcache] at hheld
  by_cases hd : d = String.ofList voice.name
  · subst hd
    rw [Function.update_self] at hheld
    obtain rfl := Option.some.inj hheld
    refine ⟨⟨world, voice, hworld, ?_⟩, world, hworld, hload⟩
    rw [String.toList_ofList]
    exact getVoice_head hlist
  · rw [Function.update_of_ne hd] at hheld
    exact absurd hheld (by simp [Lib.Memo.empty])

/-- Warming up a new worker. -/
theorem warmup_warmed {providers : List String} {w : SupertonicWorker S} {world : World S F}
    (hworld : Worlds world)
    (h : (SupertonicWorker.init S providers).warmup cfg world = (.ok (), w)) :
    Warmed cfg Worlds providers w := by
  obtain ⟨voice, rest, style, result, hlist, hload, -, rfl⟩ := (warmup_ok_iff cfg rfl).mp h
  have hload' : world.tts.getVoiceStyle (String.ofList voice.name) = .ok style := hload
  have hfetch : fetchStyle cfg world (String.ofList voice.name) = .ok style := by
    unfold fetchStyle
    rw [String.toList_ofList, getVoice_head hlist]
    exact hload'
  have hget : (SupertonicWorker.init S providers).styleCache.get (String.ofList voice.name)
      (fetchStyle cfg world (String.ofList voice.name)) =
      (.ok style, Function.update (Lib.Memo.empty String S) (String.ofList voice.name)
        (some style)) := by
    rw [hfetch]
    rfl
  unfold SupertonicWorker.getStyle
  rw [hget]
  exact ⟨rfl, rfl, rfl, world, voice, rest, style, hworld, hlist, hload', rfl, rfl⟩

/-- One round of the loop: a warm worker on the providers the device means. -/
theorem build_cases {boot : Boot S F} {cuda cuda' : Cuda} {w : SupertonicWorker S}
    (h : create lower device boot cuda = (.ok w, cuda')) :
    ∃ providers,
      applyDevice lower boot.world.repr boot.gpu cuda device = (.ok providers, cuda') ∧
      w = SupertonicWorker.init S providers := by
  unfold create at h
  split at h
  next => exact absurd h (by simp)
  next providers c happly =>
    split at h
    next => exact absurd h (by simp)
    next =>
      obtain ⟨hw, rfl⟩ := Prod.mk.inj h
      exact ⟨providers, happly, (Except.ok.inj hw).symm⟩

/-- What the loop has built. -/
structure Built (lower : List Char → List Char) (cfg : Config) (device : List Char)
    (Worlds : World S F → Prop) (n : Nat) (workers : List (SupertonicWorker S)) (cuda : Cuda) :
    Prop where
  length : workers.length = n
  uniform : ∃ providers, (∀ w ∈ workers, Warmed cfg Worlds providers w) ∧
    (workers ≠ [] →
      ∀ repr gpu, applyDevice lower repr gpu cuda device = (.ok providers, cuda))

/-- **The loop builds as many workers as it makes rounds, all on the same providers**, whatever
it finds in each of them. -/
theorem buildAndWarm_built {boots : Nat → Boot S F} {cuda cuda' : Cuda} {n : Nat}
    {workers : List (SupertonicWorker S)} (hworlds : ∀ i, Worlds (boots i).world)
    (h : buildAndWarm lower cfg device boots cuda n = (.ok workers, cuda')) :
    Built lower cfg device Worlds n workers cuda' := by
  induction n generalizing workers cuda' with
  | zero =>
    obtain ⟨hworkers, -⟩ := Prod.mk.inj h
    obtain rfl := Except.ok.inj hworkers
    exact ⟨rfl, [], by simp, by simp⟩
  | succ n ih =>
    rw [buildAndWarm] at h
    split at h
    next => exact absurd h (by simp)
    next built c hbuilt =>
      obtain ⟨hlength, providers, hwarmed, hdevice⟩ := ih hbuilt
      split at h
      next => exact absurd h (by simp)
      next w c' hcreate =>
        obtain ⟨providers', happly, rfl⟩ := build_cases hcreate
        split at h
        next => exact absurd h (by simp)
        next w' hwarmup =>
          obtain ⟨hworkers, rfl⟩ := Prod.mk.inj h
          obtain rfl := Except.ok.inj hworkers
          have hnew : Warmed cfg Worlds providers' w' := warmup_warmed (hworlds n) hwarmup
          refine ⟨by simp [hlength], providers', ?_, fun _ repr gpu => applyDevice_again happly⟩
          intro x hx
          rcases List.mem_append.mp hx with hx | hx
          · -- the device meant the same for the earlier workers
            have hsame := hdevice (List.ne_nil_of_mem hx) (boots n).world.repr (boots n).gpu
            rw [hsame] at happly
            obtain ⟨hproviders, -⟩ := Prod.mk.inj happly
            rw [← Except.ok.inj hproviders]
            exact hwarmed x hx
          · rw [List.mem_singleton.mp hx]
            exact hnew

/-! ## The life of a pool -/

/-- A call of `start` or `stop`. -/
inductive LifeAct (S F : Type) where
  | start (boots : Nat → Boot S F)
  | stop

/-- The pool after a call that returns or raises. -/
def lifeStep (lower : List Char → List Char) (cfg : Config) (device : List Char)
    (st : PoolObject S F × Cuda) : LifeAct S F → Option (PoolObject S F × Cuda)
  | .start boots => some (st.1.start lower cfg device boots st.2).2
  | .stop => st.1.stop.map fun o => (o, st.2)

/-- The worlds of the starts are among these. -/
def LifeAct.Within (Worlds : World S F → Prop) : LifeAct S F → Prop
  | .start boots => ∀ i, Worlds (boots i).world
  | .stop => True

/-- A ready pool has all its workers. -/
def Whole (lower : List Char → List Char) (cfg : Config) (device : List Char)
    (Worlds : World S F → Prop) (n : ℕ+) (st : PoolObject S F × Cuda) : Prop :=
  st.1.pool.nWorkers = n ∧
    (st.1.pool.ready = true → Built lower cfg device Worlds n st.1.workers st.2)

theorem lifeStep_whole {n : ℕ+} {st st' : PoolObject S F × Cuda} {a : LifeAct S F}
    (h : Whole lower cfg device Worlds n st) (hin : a.Within Worlds)
    (hstep : lifeStep lower cfg device st a = some st') : Whole lower cfg device Worlds n st' := by
  obtain ⟨hn, hwhole⟩ := h
  cases a with
  | start boots =>
    obtain rfl := Option.some.inj hstep
    unfold PoolObject.start
    split
    next => exact ⟨hn, hwhole⟩
    next hcold =>
      split
      next => exact ⟨hn, fun hready => absurd hready hcold⟩
      next workers cuda' hbuilt =>
        rw [hn] at hbuilt
        exact ⟨hn, fun _ => buildAndWarm_built hin hbuilt⟩
  | stop =>
    obtain ⟨o, ho, rfl⟩ := Option.map_eq_some_iff.mp hstep
    unfold PoolObject.stop at ho
    split at ho
    next =>
      obtain rfl := Option.some.inj ho
      exact ⟨hn, fun hready => absurd hready (by simp)⟩
    next => exact absurd ho (by simp)

/-- **A pool is ready as a whole or not at all**, after any calls of `start` and `stop`, in any
environment: either `/ready` says 503 and `synthesize` raises, or `/ready` says 200, and the
pool has its `n_workers` workers, all warmed up and all on the same providers. -/
theorem ready_whole {n : Int} {o : PoolObject S F} (hcreate : PoolObject.create S F n = .ok o)
    {cuda : Cuda} {acts : List (LifeAct S F)} (hin : ∀ a ∈ acts, a.Within Worlds)
    {st : PoolObject S F × Cuda} (hrun : run (lifeStep lower cfg device) (o, cuda) acts = some st) :
    (st.1.readyResponse = (503, none) ∧
      ∀ c, st.1.pool.synthesizeStart c = .raises "pool not started — call start() first") ∨
    (st.1.readyResponse = (200, some n.toNat) ∧ st.1.workers.length = n.toNat ∧
      ∃ providers, ∀ w ∈ st.1.workers, Warmed cfg Worlds providers w) := by
  obtain ⟨hpos, hinit⟩ : ∃ hpos : 0 < n.toNat,
      Whole lower cfg device Worlds ⟨n.toNat, hpos⟩ (o, cuda) := by
    unfold PoolObject.create at hcreate
    split at hcreate
    next => exact absurd hcreate (by simp)
    next =>
      obtain rfl := Except.ok.inj hcreate
      exact ⟨by omega, rfl, fun hready => absurd hready (by simp)⟩
  obtain ⟨hn, hwhole⟩ := Lib.run_inv_of (P := fun _ a => LifeAct.Within Worlds a)
    (fun _ _ _ h hin hs => lifeStep_whole h hin hs)
    (fun pre a post _ _ hsplit _ _ => hin a (by rw [hsplit]; simp)) hinit hrun
  unfold PoolObject.readyResponse
  cases hready : st.1.pool.ready with
  | false =>
    refine Or.inl ⟨rfl, fun c => ?_⟩
    simp [WorkerPool.synthesizeStart, hready]
  | true =>
    obtain ⟨hlength, providers, hwarmed, -⟩ := hwhole hready
    refine Or.inr ⟨?_, hlength, providers, hwarmed⟩
    rw [if_pos rfl, hn]
    rfl

/-! ## One voice -/

/-- `str.lower`, of ASCII. -/
def asciiLower (s : List Char) : List Char := s.map Char.toLower

/-- The same world each time, and no GPU. -/
def oneVoiceBoots (_ : Nat) : Boot Unit Unit where
  gpu :=
    { sitePackages := [], isDir := fun _ => false, sharedObjects := fun _ => [],
      dlopen := fun _ _ => false, onnxruntime := none }
  load := .ok ()
  world := oneVoice

theorem ready_whole_one_voice : ∃ o st, PoolObject.create Unit Unit 2 = .ok o ∧
    run (lifeStep asciiLower defaultConfig "auto".toList) (o, Cuda.init)
      [.start oneVoiceBoots] = some st ∧
    st.1.workers.length = 2 ∧
    ∃ providers, ∀ w ∈ st.1.workers, Warmed defaultConfig (· = oneVoice) providers w := by
  have hready : ((PoolObject.create Unit Unit 2).toOption.map fun o =>
      ((run (lifeStep asciiLower defaultConfig "auto".toList) (o, Cuda.init)
        [.start oneVoiceBoots]).map fun st => st.1.readyResponse.1)) = some (some 200) := by
    decide +kernel
  obtain ⟨o, ho⟩ : ∃ o, PoolObject.create Unit Unit 2 = .ok o := ⟨_, rfl⟩
  obtain ⟨st, hst⟩ : ∃ st,
      run (lifeStep asciiLower defaultConfig "auto".toList) (o, Cuda.init)
        [.start oneVoiceBoots] = some st :=
    ⟨_, rfl⟩
  rw [ho, show (Except.ok o : Except String (PoolObject Unit Unit)).toOption = some o from rfl,
    Option.map_some, hst, Option.map_some] at hready
  have hstatus : st.1.readyResponse.1 = 200 := Option.some.inj (Option.some.inj hready)
  refine ⟨o, st, ho, hst, ?_⟩
  have hin : ∀ a ∈ [LifeAct.start oneVoiceBoots], a.Within (· = oneVoice) := by
    simp [LifeAct.Within, oneVoiceBoots]
  rcases ready_whole ho hin hst with ⟨hno, -⟩ | ⟨-, hlength, hwarmed⟩
  · rw [hno] at hstatus
    exact absurd hstatus (by decide)
  · exact ⟨hlength, hwarmed⟩

/-- The workers of that pool. -/
def oneVoiceWorkers : List (SupertonicWorker Unit) :=
  (buildAndWarm asciiLower defaultConfig "auto".toList oneVoiceBoots Cuda.init
    2).1.toOption.getD []

theorem oneVoiceWorkers_warmed : ∃ providers,
    ∀ w ∈ oneVoiceWorkers, Warmed defaultConfig (· = oneVoice) providers w := by
  unfold oneVoiceWorkers
  generalize hbuild :
    buildAndWarm asciiLower defaultConfig "auto".toList oneVoiceBoots Cuda.init 2 = r
  obtain ⟨built, cuda⟩ := r
  cases built with
  | error message => simp [Except.toOption]
  | ok workers =>
    have hbuilt : Built asciiLower defaultConfig _ (· = oneVoice) 2 workers cuda :=
      buildAndWarm_built (fun _ => rfl) hbuild
    obtain ⟨-, providers, hwarmed, -⟩ := hbuilt
    exact ⟨providers, hwarmed⟩

theorem oneVoiceWorkers_kept : ∀ w ∈ oneVoiceWorkers, Kept defaultConfig (· = oneVoice) w := by
  obtain ⟨providers, hwarmed⟩ := oneVoiceWorkers_warmed
  exact fun w hw => (hwarmed w hw).kept

end SupertonicServer.Worker
