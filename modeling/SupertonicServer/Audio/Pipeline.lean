import SupertonicServer.Audio.FrameWidth
import SupertonicServer.Wire.Message

/-!
# From a synthesis result to PCM frames

`audio.py` on one-dimensional arrays. The operations on `float32` samples belong to numpy and
scipy and are parameters (`AudioOps`). The rest is the source's: scaling, clipping and casting,
the reduced up and down factors, the frame width, the zero padding, and the little-endian byte
slices. An exception is its message.
-/

namespace SupertonicServer.Audio

open Wire (Bytes)

variable {F : Type}

/-- The numerical operations on `float32` samples of type `F`. -/
structure AudioOps (F : Type) where
  /-- `x * float(n)` -/
  mulFloat : F → Int → F
  /-- `np.clip(x, lo, hi)` -/
  clip : F → Int → Int → F
  /-- `x.astype(np.int16)` -/
  astypeInt16 : F → BitVec 16
  /-- `scipy.signal.resample_poly(wav, up, down)` -/
  resamplePoly : List F → Nat → Nat → List F

/-- The part of a `SynthResult` that shipping reads. -/
structure SynthResult (F : Type) where
  wavF32 : List F
  sampleRate : Int
deriving DecidableEq

/-- `_NATIVE_SR` of the worker. -/
def nativeSr : Int := 44100

/-- `_INT16_MAX`. -/
def int16Max : Int := 32767

/-- `_INT16_MIN`. -/
def int16Min : Int := -32768

/-- `f32_to_int16`, of one sample. -/
def AudioOps.toInt16 (ops : AudioOps F) (x : F) : BitVec 16 :=
  ops.astypeInt16 (ops.clip (ops.mulFloat x int16Max) int16Min int16Max)

def f32ToInt16 (ops : AudioOps F) (wav : List F) : List (BitVec 16) := wav.map ops.toInt16

/-- `resample` on float input. -/
def resample (ops : AudioOps F) (wav : List F) (srcSr dstSr : Int) : Except String (List F) :=
  if srcSr ≤ 0 ∨ dstSr ≤ 0 then
    .error s!"sample rates must be positive; got src_sr={srcSr} dst_sr={dstSr}"
  else if srcSr = dstSr then .ok wav
  else
    let g := Nat.gcd srcSr.toNat dstSr.toNat
    let up := dstSr.toNat / g
    let down := srcSr.toNat / g
    .ok (ops.resamplePoly wav up down)

/-- An `int16` as two bytes, low byte first (`"<i2"`). -/
def leBytes (s : BitVec 16) : Bytes := [s.extractLsb' 0 8, s.extractLsb' 8 8]

/-- How an `int` prints. -/
def intRepr (q : ℚ) : String := if q.den = 1 then s!"{q.num}" else s!"{q}"

/-- How a `float` prints, for the integral values used as `frame_ms`. -/
def floatRepr (q : ℚ) : String := if q.den = 1 then s!"{q.num}.0" else s!"{q}"

/-- `slice_into_frames`, with the samples of a frame computed by `width`. -/
def sliceIntoFrames (width : FrameWidth) (pcm : List (BitVec 16)) (sampleRate frameMs : ℚ) :
    Except String (List Bytes) :=
  if sampleRate ≤ 0 then .error s!"sample_rate must be positive; got {intRepr sampleRate}"
  else if frameMs ≤ 0 then .error s!"frame_ms must be positive; got {floatRepr frameMs}"
  else
    match width sampleRate frameMs with
    | .error message => .error message
    | .ok samplesPerFrame =>
      if samplesPerFrame ≤ 0 then
        .error
          s!"frame_ms={floatRepr frameMs} at sample_rate={intRepr sampleRate} yields 0 samples"
      else
        let spf := samplesPerFrame.toNat
        let n := pcm.length
        if n = 0 then .ok []
        else
          let nFrames := (n + spf - 1) / spf
          let paddedLen := nFrames * spf
          let padded := pcm ++ List.replicate (paddedLen - n) 0
          let raw := padded.flatMap leBytes
          let bytesPerFrame := spf * 2
          .ok ((List.range nFrames).map fun i => (raw.drop (i * bytesPerFrame)).take bytesPerFrame)

/-- `pipeline`: resample, quantise, slice. -/
def pipeline (ops : AudioOps F) (wav : List F) (srcSr dstSr : Int)
    (frameMs : ℚ := defaultFrameMs) : Except String (List Bytes) := do
  let arr ← if srcSr ≠ dstSr then resample ops wav srcSr dstSr else pure wav
  sliceIntoFrames samplesPerFrame (f32ToInt16 ops arr) dstSr frameMs

/-! ## When audio can be shipped -/

theorem sliceIntoFrames_ok_iff (pcm : List (BitVec 16)) (sampleRate : Int) :
    (∃ frames, sliceIntoFrames samplesPerFrame pcm sampleRate defaultFrameMs = .ok frames) ↔
      Servable sampleRate := by
  have hwidth := samplesPerFrame_pos_iff sampleRate
  unfold sliceIntoFrames
  split
  next hneg =>
    have hle : sampleRate ≤ 0 := by exact_mod_cast hneg
    exact iff_of_false (by simp) (fun h => absurd h.1 (by omega))
  next =>
    rw [if_neg (by norm_num [defaultFrameMs])]
    split
    next message herror =>
      rw [herror] at hwidth
      exact iff_of_false (by simp) (fun h => absurd (hwidth.mpr h) (by simp))
    next spf hspf =>
      rw [hspf] at hwidth
      split
      next hzero =>
        refine iff_of_false (by simp) (fun h => ?_)
        obtain ⟨spf', hsame, hpos⟩ := hwidth.mpr h
        obtain rfl := Except.ok.inj hsame
        omega
      next hpos =>
        refine iff_of_true ?_ (hwidth.mp ⟨spf, rfl, by omega⟩)
        dsimp only
        split
        next => exact ⟨_, rfl⟩
        next => exact ⟨_, rfl⟩

/-- `pipeline` returns frames exactly at the rates that can be served. -/
theorem pipeline_ok_iff (ops : AudioOps F) (wav : List F) {srcSr dstSr : Int}
    (hsrc : 0 < srcSr) :
    (∃ frames, pipeline ops wav srcSr dstSr = .ok frames) ↔ Servable dstSr := by
  unfold pipeline
  by_cases hsame : srcSr = dstSr
  · rw [if_neg (by simpa using hsame)]
    exact sliceIntoFrames_ok_iff _ dstSr
  · rw [if_pos hsame]
    unfold resample
    by_cases hdst : dstSr ≤ 0
    · rw [if_pos (Or.inr hdst)]
      exact iff_of_false (fun h => nomatch h) (fun h => absurd h.1 (by omega))
    · rw [if_neg (by omega), if_neg hsame]
      exact sliceIntoFrames_ok_iff _ dstSr

end SupertonicServer.Audio

namespace SupertonicServer

open Audio (AudioOps)

/-- Every sample is silent; `resample_poly` returns `ceil(n * up / down)` of them. -/
def silentOps : AudioOps Unit :=
  { mulFloat := fun _ _ => ()
    clip := fun _ _ _ => ()
    astypeInt16 := fun _ => 0
    resamplePoly := fun wav up down => List.replicate ((wav.length * up + down - 1) / down) () }

end SupertonicServer
