import Mathlib.Data.Nat.Cast.Field
import SupertonicServer.Audio.Pipeline
import SupertonicServer.Lib.Slices

/-!
# What the frames say

The byte frames read back as samples (`int16OfLe`). Slicing keeps every sample, in order, and
adds less than one frame of silence (`sliceIntoFrames_exact`). Resampling rounds the number
of samples up once and slicing rounds it up again, but the two together add less than one
frame to the exact duration (`shipped_duration`).
-/

namespace SupertonicServer.Audio

open Wire (Bytes)
open Lib (slices length_slices slices_flatten length_of_mem_slices le_slices_mul slices_mul_lt
  slices_eq_ceil)

/-- Bytes read as little-endian `int16` samples. -/
def int16OfLe : Bytes → List (BitVec 16)
  | lo :: hi :: rest => (hi ++ lo) :: int16OfLe rest
  | _ => []

/-- Reading back what `leBytes` wrote. -/
theorem int16OfLe_leBytes (pcm : List (BitVec 16)) : int16OfLe (pcm.flatMap leBytes) = pcm := by
  induction pcm with
  | nil => rfl
  | cons s pcm ih =>
    have hs : (s.extractLsb' 8 8 ++ s.extractLsb' 0 8 : BitVec 16) = s :=
      BitVec.extractLsb'_append_extractLsb'
    show (s.extractLsb' 8 8 ++ s.extractLsb' 0 8 : BitVec 16) :: int16OfLe (pcm.flatMap leBytes) = _
    rw [hs, ih]

theorem length_flatMap_leBytes (pcm : List (BitVec 16)) :
    (pcm.flatMap leBytes).length = 2 * pcm.length := by
  induction pcm with
  | nil => rfl
  | cons s pcm ih =>
    rw [List.flatMap_cons, List.length_append, ih, List.length_cons]
    show 2 + 2 * pcm.length = _
    omega

/-- Past its checks `slice_into_frames` slices the padded samples. -/
theorem sliceIntoFrames_eq {width : FrameWidth} (pcm : List (BitVec 16)) {sampleRate frameMs : ℚ}
    {w : Int} (hrate : 0 < sampleRate) (hms : 0 < frameMs)
    (hwidth : width sampleRate frameMs = .ok w) (hspf : 1 ≤ w) :
    let spf := w.toNat
    let nFrames := (pcm.length + spf - 1) / spf
    let padded := pcm ++ List.replicate (nFrames * spf - pcm.length) 0
    sliceIntoFrames width pcm sampleRate frameMs =
      .ok (slices (spf * 2) nFrames (padded.flatMap leBytes)) := by
  intro spf nFrames padded
  unfold sliceIntoFrames
  rw [if_neg (not_le.mpr hrate), if_neg (not_le.mpr hms), hwidth]
  dsimp only
  rw [if_neg (by omega)]
  split
  next hnil =>
    -- no samples, no frames
    have hpos : 0 < spf := by
      show 0 < w.toNat
      omega
    have hzero : nFrames = 0 := by
      show (pcm.length + spf - 1) / spf = 0
      rw [hnil]
      exact Nat.div_eq_of_lt (by omega)
    rw [hzero]
    rfl
  next => rfl

/-- `frames` carry the samples `pcm`, `spf` to a frame: just enough frames, all of one width,
that read back as the samples and less than one frame of silence. -/
structure FramesOf (spf : Nat) (pcm : List (BitVec 16)) (frames : List Bytes) : Prop where
  count : frames.length = ⌈(pcm.length : ℚ) / spf⌉₊
  width : ∀ frame ∈ frames, frame.length = 2 * spf
  samples : ∃ silence < spf, int16OfLe frames.flatten = pcm ++ List.replicate silence 0

/-- The slices of the padded samples carry them. -/
theorem framesOf_slices (pcm : List (BitVec 16)) {spf : Nat} (hpos : 0 < spf) :
    let nFrames := (pcm.length + spf - 1) / spf
    let padded := pcm ++ List.replicate (nFrames * spf - pcm.length) 0
    FramesOf spf pcm (slices (spf * 2) nFrames (padded.flatMap leBytes)) := by
  intro nFrames padded
  have hcover : pcm.length ≤ nFrames * spf := le_slices_mul pcm.length hpos
  have hspare : nFrames * spf < pcm.length + spf := slices_mul_lt pcm.length hpos
  have hpadded : padded.length = nFrames * spf := by
    rw [List.length_append, List.length_replicate]
    omega
  have hraw : (padded.flatMap leBytes).length = nFrames * (spf * 2) := by
    rw [length_flatMap_leBytes, hpadded, Nat.mul_comm, Nat.mul_assoc]
  constructor
  · rw [length_slices]
    exact slices_eq_ceil pcm.length hpos
  · intro frame hf
    rw [length_of_mem_slices (Nat.le_of_eq hraw.symm) frame hf, Nat.mul_comm]
  · refine ⟨nFrames * spf - pcm.length, by omega, ?_⟩
    rw [slices_flatten, List.take_of_length_le (Nat.le_of_eq hraw), int16OfLe_leBytes]

/-- Frames of whatever width is computed, where that is positive. -/
theorem framesOf_sliceIntoFrames {width : FrameWidth} (pcm : List (BitVec 16))
    {sampleRate frameMs : ℚ} {spf : Int} (hrate : 0 < sampleRate) (hms : 0 < frameMs)
    (hwidth : width sampleRate frameMs = .ok spf) (hspf : 1 ≤ spf) :
    ∃ frames, sliceIntoFrames width pcm sampleRate frameMs = .ok frames ∧
      FramesOf spf.toNat pcm frames := by
  refine ⟨_, sliceIntoFrames_eq pcm hrate hms hwidth hspf, ?_⟩
  apply framesOf_slices
  omega

/-- **Slicing is exact**: `ceil(n / spf)` frames of `2 * spf` bytes, which read back as the
`n` samples and less than one frame of zeros. The width is the exact quotient, or the one that
floats make of it. -/
theorem sliceIntoFrames_exact (pcm : List (BitVec 16)) {sampleRate frameMs : ℚ}
    (hrate : 0 < sampleRate) (hms : 0 < frameMs) :
    (1 ≤ ⌊sampleRate * frameMs / 1000⌋ →
      ∃ frames, sliceIntoFrames exactWidth pcm sampleRate frameMs = .ok frames ∧
        FramesOf ⌊sampleRate * frameMs / 1000⌋.toNat pcm frames) ∧
    ∀ spf, samplesPerFrame sampleRate frameMs = .ok spf → 1 ≤ spf →
      ∃ frames, sliceIntoFrames samplesPerFrame pcm sampleRate frameMs = .ok frames ∧
        FramesOf spf.toNat pcm frames := by
  constructor
  · intro hspf
    exact framesOf_sliceIntoFrames pcm hrate hms rfl hspf
  · intro spf hwidth hspf
    exact framesOf_sliceIntoFrames pcm hrate hms hwidth hspf

/-- Three samples at 100 samples a second, in frames of 20 ms: two frames of two samples. -/
theorem sliceIntoFrames_exact_three :
    ∃ frames, sliceIntoFrames exactWidth [1, -2, 3] 100 20 = .ok frames ∧
      FramesOf 2 [1, -2, 3] frames := by
  have hfloor : ⌊(100 : ℚ) * 20 / 1000⌋ = 2 := by norm_num
  obtain ⟨hexact, -⟩ :=
    @sliceIntoFrames_exact [1, -2, 3] 100 20 (by norm_num) (by norm_num)
  obtain ⟨frames, hframes, hof⟩ := hexact (by rw [hfloor]; decide)
  rw [hfloor] at hof
  exact ⟨frames, hframes, hof⟩

/-! ## Resampling -/

/-- `resample_poly` returns `ceil(n * up / down)` samples. -/
def ResampleLength {F : Type} (ops : AudioOps F) : Prop :=
  ∀ (wav : List F) (up down : Nat), wav ≠ [] → 0 < up → 0 < down →
    (ops.resamplePoly wav up down).length = ⌈(wav.length * up : ℚ) / down⌉₊

variable {F : Type} {ops : AudioOps F}

/-- The reduced factors have the ratio of the rates. -/
theorem reduced_ratio {srcSr dstSr : Nat} (hsrc : 0 < srcSr) :
    ((dstSr / Nat.gcd srcSr dstSr : Nat) : ℚ) / (srcSr / Nat.gcd srcSr dstSr : Nat) =
      (dstSr : ℚ) / srcSr := by
  have hg : Nat.gcd srcSr dstSr ≠ 0 := Nat.gcd_ne_zero_left (by omega)
  have hgq : ((Nat.gcd srcSr dstSr : Nat) : ℚ) ≠ 0 := by exact_mod_cast hg
  rw [Nat.cast_div (Nat.gcd_dvd_right srcSr dstSr) hgq,
    Nat.cast_div (Nat.gcd_dvd_left srcSr dstSr) hgq]
  exact div_div_div_cancel_right₀ hgq _ _

/-- `resample` keeps the duration, rounded up to whole samples. -/
theorem resample_length (hres : ResampleLength ops) {wav : List F} (hwav : wav ≠ [])
    {srcSr dstSr : Int} (hsrc : 0 < srcSr) (hdst : 0 < dstSr) :
    ∃ out, resample ops wav srcSr dstSr = .ok out ∧
      out.length = ⌈(wav.length * dstSr : ℚ) / srcSr⌉₊ := by
  unfold resample
  rw [if_neg (by omega)]
  by_cases hsame : srcSr = dstSr
  · rw [if_pos hsame, hsame]
    refine ⟨wav, rfl, ?_⟩
    have hne : (dstSr : ℚ) ≠ 0 := by exact_mod_cast (by omega : dstSr ≠ 0)
    rw [mul_div_assoc, div_self hne, mul_one, Nat.ceil_natCast]
  · rw [if_neg hsame]
    obtain ⟨src, rfl⟩ : ∃ n : Nat, srcSr = n := ⟨srcSr.toNat, by omega⟩
    obtain ⟨dst, rfl⟩ : ∃ n : Nat, dstSr = n := ⟨dstSr.toNat, by omega⟩
    have hs : 0 < src := by omega
    have hd : 0 < dst := by omega
    have hup : 0 < dst / Nat.gcd src dst :=
      Nat.div_pos (Nat.gcd_le_right src hd) (Nat.gcd_pos_of_pos_left dst hs)
    have hdown : 0 < src / Nat.gcd src dst :=
      Nat.div_pos (Nat.gcd_le_left dst hs) (Nat.gcd_pos_of_pos_left dst hs)
    refine ⟨_, rfl, ?_⟩
    simp only [Int.toNat_natCast, Int.cast_natCast]
    rw [hres wav _ _ hwav hup hdown, mul_div_assoc, reduced_ratio hs, ← mul_div_assoc]

/-- For positive rates `pipeline` resamples, quantises and slices, at equal rates too. -/
theorem pipeline_eq (wav : List F) {srcSr dstSr : Int} (hsrc : 0 < srcSr)
    {out : List F} (hout : resample ops wav srcSr dstSr = .ok out) :
    pipeline ops wav srcSr dstSr =
      sliceIntoFrames samplesPerFrame (f32ToInt16 ops out) dstSr defaultFrameMs := by
  unfold pipeline
  by_cases hsame : srcSr = dstSr
  · rw [if_neg (by simpa using hsame)]
    unfold resample at hout
    rw [if_neg (by omega), if_pos hsame] at hout
    obtain rfl : wav = out := Except.ok.inj hout
    rfl
  · rw [if_pos hsame, hout]
    rfl

/-- What `pipeline` ships for a nonempty result. -/
theorem pipeline_frames (hres : ResampleLength ops) {wav : List F} (hwav : wav ≠ [])
    {srcSr dstSr : Int} (hsrc : 0 < srcSr) (hserve : Servable dstSr) :
    ∃ out frames, resample ops wav srcSr dstSr = .ok out ∧
      out.length = ⌈(wav.length * dstSr : ℚ) / srcSr⌉₊ ∧
      pipeline ops wav srcSr dstSr = .ok frames ∧
      FramesOf (frameSamples dstSr) (f32ToInt16 ops out) frames := by
  have hdst : 50 ≤ dstSr := hserve.1
  obtain ⟨hwidth, hspf⟩ := hserve.width
  obtain ⟨out, hout, hlen⟩ := resample_length hres hwav hsrc (show 0 < dstSr by omega)
  obtain ⟨frames, hslice, hframes⟩ := framesOf_sliceIntoFrames (f32ToInt16 ops out)
    (hserve.rate_pos) (by norm_num [defaultFrameMs]) hwidth (by omega)
  rw [Int.toNat_natCast] at hframes
  exact ⟨out, frames, hout, hlen, (pipeline_eq wav hsrc hout).trans hslice, hframes⟩

/-- Frames that `pipeline` returned carry the quantised samples at the new rate. -/
theorem framesOf_pipeline {wav : List F} {srcSr dstSr : Int} (hsrc : 0 < srcSr)
    {frames : List Bytes} (h : pipeline ops wav srcSr dstSr = .ok frames) :
    ∃ out, resample ops wav srcSr dstSr = .ok out ∧
      FramesOf (frameSamples dstSr) (f32ToInt16 ops out) frames := by
  have hserve : Servable dstSr := (pipeline_ok_iff ops wav hsrc).mp ⟨frames, h⟩
  have hdst : 50 ≤ dstSr := hserve.1
  obtain ⟨hwidth, hspf⟩ := hserve.width
  obtain ⟨out, hout⟩ : ∃ out, resample ops wav srcSr dstSr = .ok out := by
    unfold resample
    rw [if_neg (by omega)]
    split
    next => exact ⟨_, rfl⟩
    next => exact ⟨_, rfl⟩
  obtain ⟨frames', hslice, hframes⟩ := framesOf_sliceIntoFrames (f32ToInt16 ops out)
    (hserve.rate_pos) (by norm_num [defaultFrameMs]) hwidth (by omega)
  rw [Int.toNat_natCast] at hframes
  obtain rfl : frames = frames' :=
    Except.ok.inj (h.symm.trans ((pipeline_eq wav hsrc hout).trans hslice))
  exact ⟨out, hout, hframes⟩

/-- Whole samples in front are read first. -/
theorem int16OfLe_append {bytes : Bytes} (heven : bytes.length % 2 = 0) (rest : Bytes) :
    int16OfLe (bytes ++ rest) = int16OfLe bytes ++ int16OfLe rest := by
  induction bytes using int16OfLe.induct with
  | case1 lo hi bytes ih =>
    simp only [List.length_cons] at heven
    show (hi ++ lo) :: int16OfLe (bytes ++ rest) = (hi ++ lo) :: int16OfLe bytes ++ int16OfLe rest
    rw [ih (by omega)]
    rfl
  | case2 bytes hshort =>
    cases bytes with
    | nil => rfl
    | cons b bytes =>
      cases bytes with
      | nil => exact absurd heven (by simp)
      | cons c bytes => exact absurd rfl (hshort b c bytes)

/-! ## Duration -/

/-- The number of samples in a list of frames. -/
def sampleCount (frames : List Bytes) : Nat := (int16OfLe frames.flatten).length

theorem length_int16OfLe (bytes : Bytes) : (int16OfLe bytes).length = bytes.length / 2 := by
  induction bytes using int16OfLe.induct with
  | case1 lo hi bytes ih =>
    show (int16OfLe bytes).length + 1 = (bytes.length + 1 + 1) / 2
    omega
  | case2 bytes hshort =>
    cases bytes with
    | nil => rfl
    | cons b bytes =>
      cases bytes with
      | nil => simp [int16OfLe]
      | cons c bytes => exact absurd rfl (hshort b c bytes)

/-- Frames are full. -/
theorem FramesOf.sampleCount_eq {spf : Nat} {pcm : List (BitVec 16)} {frames : List Bytes}
    (h : FramesOf spf pcm frames) : sampleCount frames = frames.length * spf := by
  have hlen : frames.flatten.length = frames.length * (2 * spf) := by
    rw [List.length_flatten, List.map_congr_left h.width, List.map_const', List.sum_replicate_nat]
  unfold sampleCount
  rw [length_int16OfLe, hlen, Nat.mul_left_comm, Nat.mul_div_cancel_left _ (by decide)]

/-- Frames hold the samples they carry and less than one frame more. -/
theorem FramesOf.sampleCount_bounds {spf : Nat} {pcm : List (BitVec 16)} {frames : List Bytes}
    (h : FramesOf spf pcm frames) :
    pcm.length ≤ sampleCount frames ∧ sampleCount frames < pcm.length + spf := by
  obtain ⟨silence, hlt, hsamples⟩ := h.samples
  unfold sampleCount
  rw [hsamples, List.length_append, List.length_replicate]
  omega

/-- One result: what is shipped is as long as the result, and less than one frame longer. -/
theorem pipeline_duration (hres : ResampleLength ops) {wav : List F} (hwav : wav ≠ [])
    {srcSr dstSr : Int} (hsrc : 0 < srcSr) (hserve : Servable dstSr) :
    ∃ frames, pipeline ops wav srcSr dstSr = .ok frames ∧
      (wav.length * dstSr : ℚ) / srcSr ≤ sampleCount frames ∧
      (sampleCount frames : ℚ) < (wav.length * dstSr : ℚ) / srcSr + frameSamples dstSr := by
  obtain ⟨out, frames, -, hlen, hpipe, hframes⟩ := pipeline_frames hres hwav hsrc hserve
  obtain ⟨hge, hlt⟩ := hframes.sampleCount_bounds
  rw [f32ToInt16, List.length_map, hlen] at hge hlt
  have hdst : 50 ≤ dstSr := hserve.1
  have hnonneg : (0 : ℚ) ≤ (wav.length * dstSr : ℚ) / srcSr := by
    have h1 : (0 : ℚ) ≤ dstSr := by exact_mod_cast (by omega : 0 ≤ dstSr)
    have h2 : (0 : ℚ) ≤ srcSr := by exact_mod_cast (by omega : 0 ≤ srcSr)
    positivity
  refine ⟨frames, hpipe, ?_, ?_⟩
  · exact le_trans (Nat.le_ceil _) (by exact_mod_cast hge)
  · -- both roundings stay below the next whole sample plus `spf - 1`
    have hceil := Nat.ceil_lt_add_one hnonneg
    have hq : (sampleCount frames : ℚ) + 1 ≤
        ⌈(wav.length * dstSr : ℚ) / srcSr⌉₊ + frameSamples dstSr := by exact_mod_cast hlt
    linarith

/-- A result and the frames `_ship` made of it for a client at `dstSr`. -/
structure ShippedResult (ops : AudioOps F) (dstSr : Int) where
  result : SynthResult F
  frames : List Bytes
  shipped : pipeline ops result.wavF32 result.sampleRate dstSr = .ok frames
  nonempty : result.wavF32 ≠ []
  rate_pos : 0 < result.sampleRate

/-- The duration of a result, in seconds. -/
def SynthResult.seconds (r : SynthResult F) : ℚ := (r.wavF32.length : ℚ) / r.sampleRate

/-- The duration of what was shipped for it. -/
def ShippedResult.seconds {dstSr : Int} (s : ShippedResult ops dstSr) : ℚ :=
  (sampleCount s.frames : ℚ) / dstSr

/-- One result in seconds. -/
theorem ShippedResult.seconds_bounds (hres : ResampleLength ops) {dstSr : Int}
    (hserve : Servable dstSr) (s : ShippedResult ops dstSr) :
    s.result.seconds ≤ s.seconds ∧
    s.seconds < s.result.seconds + (frameSamples dstSr : ℚ) / dstSr := by
  obtain ⟨frames, hpipe, hge, hlt⟩ := pipeline_duration hres s.nonempty s.rate_pos hserve
  obtain rfl : s.frames = frames := Except.ok.inj (s.shipped.symm.trans hpipe)
  have hdst : 50 ≤ dstSr := hserve.1
  have hd : (0 : ℚ) < dstSr := by exact_mod_cast (by omega : 0 < dstSr)
  have hs : (0 : ℚ) < s.result.sampleRate := by exact_mod_cast s.rate_pos
  have hexact : s.result.seconds * dstSr =
      (s.result.wavF32.length * dstSr : ℚ) / s.result.sampleRate := by
    unfold SynthResult.seconds
    ring
  rw [← hexact] at hge hlt
  constructor
  · exact (le_div_iff₀ hd).mpr hge
  · unfold ShippedResult.seconds
    rw [div_lt_iff₀ hd, add_mul, div_mul_cancel₀ _ (ne_of_gt hd)]
    exact hlt

/-- All results of a context in seconds. -/
theorem seconds_sum_bounds (hres : ResampleLength ops) {dstSr : Int}
    (hserve : Servable dstSr) (results : List (ShippedResult ops dstSr)) :
    let spoken := (results.map fun s => s.result.seconds).sum
    let shipped := (results.map ShippedResult.seconds).sum
    spoken ≤ shipped ∧
    (results = [] ∧ shipped = spoken ∨
      shipped < spoken + results.length * ((frameSamples dstSr : ℚ) / dstSr)) := by
  induction results with
  | nil => simp
  | cons s results ih =>
    obtain ⟨hge, hlt⟩ := s.seconds_bounds hres hserve
    obtain ⟨ihge, ihlt⟩ := ih
    simp only [List.map_cons, List.sum_cons, List.length_cons, Nat.cast_add, Nat.cast_one]
    refine ⟨by linarith, Or.inr ?_⟩
    rcases ihlt with ⟨rfl, -⟩ | ihlt
    · simp only [List.map_nil, List.sum_nil, List.length_nil, Nat.cast_zero]
      linarith
    · linarith

/-- **Shipped audio keeps its duration**: for each result the samples shipped are at least
its samples at the new rate and less than one frame more, and for the results of a context
together the excess is less than one frame for each. Up to a rate of `2 ^ 53 / 20` the samples of
a frame are the exact quotient. -/
theorem shipped_duration (hres : ResampleLength ops) {dstSr : Int} (hserve : Servable dstSr) :
    (∀ (wav : List F) (srcSr : Int), wav ≠ [] → 0 < srcSr →
      ∃ frames, pipeline ops wav srcSr dstSr = .ok frames ∧
        (wav.length * dstSr : ℚ) / srcSr ≤ sampleCount frames ∧
        (sampleCount frames : ℚ) < (wav.length * dstSr : ℚ) / srcSr + frameSamples dstSr) ∧
    (∀ results : List (ShippedResult ops dstSr),
      let spoken := (results.map fun s => s.result.seconds).sum
      let shipped := (results.map ShippedResult.seconds).sum
      spoken ≤ shipped ∧
      (spoken < shipped → shipped - spoken < results.length * frameSamples dstSr / dstSr)) ∧
    (dstSr * 20 < 2 ^ 53 → (frameSamples dstSr : Int) = ⌊(dstSr * 20 : ℚ) / 1000⌋) := by
  refine ⟨?_, ?_, ?_⟩
  · intro wav srcSr hwav hsrc
    exact pipeline_duration hres hwav hsrc hserve
  · intro results
    obtain ⟨hge, hlt⟩ := seconds_sum_bounds hres hserve results
    refine ⟨hge, ?_⟩
    intro hmore
    rcases hlt with ⟨-, heq⟩ | hlt
    · exact absurd heq (ne_of_gt hmore)
    · rw [mul_div_assoc]
      linarith
  · intro hsmall
    exact hserve.width_exact hsmall

theorem silentOps_resampleLength : ResampleLength silentOps := by
  intro wav up down _ _ hdown
  show (List.replicate ((wav.length * up + down - 1) / down) ()).length = _
  rw [List.length_replicate, slices_eq_ceil _ hdown, Nat.cast_mul]

/-- Three samples at 44100 for a client at 100 samples a second. -/
theorem shipped_duration_three : ResampleLength silentOps ∧ Servable 100 ∧
    ∃ frames, pipeline silentOps [(), (), ()] 44100 100 = .ok frames ∧
      ((3 : ℕ) * (100 : ℤ) : ℚ) / (44100 : ℤ) ≤ sampleCount frames ∧
      (frameSamples 100 : Int) = ⌊((100 : ℤ) * 20 : ℚ) / 1000⌋ := by
  have hserve : Servable 100 := by decide +kernel
  refine ⟨silentOps_resampleLength, hserve, ?_⟩
  obtain ⟨hone, -, hexact⟩ := shipped_duration silentOps_resampleLength hserve
  obtain ⟨frames, hpipe, hge, -⟩ := hone [(), (), ()] 44100 (by simp) (by decide)
  exact ⟨frames, hpipe, hge, hexact (by decide)⟩

/-- At this rate the nearest `float` makes the frame one sample wider than the quotient, and at
`10 ^ 400` there is no `float`. -/
theorem frame_past_quotient :
    (∃ frames, pipeline silentOps [()] 14073748835532799 14073748835532799 = .ok frames ∧
      1 ≤ ⌊((14073748835532799 : ℤ) * 20 : ℚ) / 1000⌋ ∧
      ((1 : ℕ) * (14073748835532799 : ℤ) : ℚ) / (14073748835532799 : ℤ) +
        ⌊((14073748835532799 : ℤ) * 20 : ℚ) / 1000⌋ ≤ sampleCount frames) ∧
    ∃ message, pipeline silentOps [()] (10 ^ 400) (10 ^ 400) = .error message := by
  have hserve : Servable 14073748835532799 := by decide +kernel
  have hlarge : ¬ Servable (10 ^ 400) := by decide +kernel
  constructor
  · have hwidth : frameSamples 14073748835532799 = 281474976710656 := by
      have hfloor : ⌊roundedWidth ((14073748835532799 : Int) : ℚ)⌋ = 281474976710656 := by
        decide +kernel
      unfold frameSamples
      rw [samplesPerFrame_of_lt hserve.2, hfloor]
      rfl
    have hquotient : ⌊((14073748835532799 : ℤ) * 20 : ℚ) / 1000⌋ = 281474976710655 := by
      decide +kernel
    have hrate : (0 : Int) < 14073748835532799 := by decide
    obtain ⟨frames, hpipe⟩ := (pipeline_ok_iff silentOps [()] hrate).mpr hserve
    obtain ⟨out, hout, hframes⟩ := framesOf_pipeline hrate hpipe
    have hone : out = [()] := Except.ok.inj (hout.symm.trans (by decide +kernel))
    refine ⟨frames, hpipe, by rw [hquotient]; decide, ?_⟩
    rw [hquotient, hframes.sampleCount_eq, hframes.count, hone, hwidth]
    norm_num [f32ToInt16]
  · cases hpipe : pipeline silentOps [()] (10 ^ 400) (10 ^ 400) with
    | ok frames =>
      have hpos : (0 : Int) < 10 ^ 400 := by decide +kernel
      exact absurd ((pipeline_ok_iff silentOps [()] hpos).mp ⟨frames, hpipe⟩) hlarge
    | error message => exact ⟨message, rfl⟩

end SupertonicServer.Audio
