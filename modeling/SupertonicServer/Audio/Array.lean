import Mathlib.Algebra.BigOperators.Group.List.Basic
import SupertonicServer.Audio.Pipeline

/-!
# Shapes

The functions of `audio.py` take numpy arrays of any shape and look at it themselves; what
`Pipeline.lean` says of lists is what is left when they have. An array is its shape and its
elements in C order, and of floating point, so the branches for integer input are not here.

`toMono` is the tail of `SupertonicWorker.synthesize`. What it makes of an array with at most
two axes of a length other than 1 is one-dimensional (`ndim_toMono`), and such an array
`pipeline` takes (`pipelineArray_eq`).
-/

namespace SupertonicServer.Audio

open Wire (Bytes)

variable {F : Type}

structure NdArray (F : Type) where
  shape : List Nat
  data : List F
  size : data.length = shape.prod

/-- A list as an array. -/
def NdArray.ofList (xs : List F) : NdArray F :=
  { shape := [xs.length], data := xs, size := by simp }

def NdArray.ndim (a : NdArray F) : Nat := a.shape.length

/-- How a tuple of lengths prints. -/
def shapeRepr : List Nat → String
  | [n] => s!"({n},)"
  | shape => "(" ++ ", ".intercalate (shape.map toString) ++ ")"

/-! ## What the worker does to the model's output -/

theorem prod_filter_ne_one (shape : List Nat) : (shape.filter (· ≠ 1)).prod = shape.prod := by
  induction shape with
  | nil => rfl
  | cons n shape ih =>
    by_cases hn : n = 1
    · rw [List.filter_cons_of_neg (by simpa using hn), ih, List.prod_cons, hn, one_mul]
    · rw [List.filter_cons_of_pos (by simpa using hn), List.prod_cons, List.prod_cons, ih]

/-- `squeeze()`: the axes of length 1 go. -/
def NdArray.squeeze (a : NdArray F) : NdArray F :=
  { shape := a.shape.filter (· ≠ 1), data := a.data, size := by rw [prod_filter_ne_one, a.size] }

/-- `np.ascontiguousarray`, which has at least one axis. -/
def NdArray.ascontiguousarray (a : NdArray F) : NdArray F :=
  if h : a.shape = [] then { shape := [1], data := a.data, size := by rw [a.size, h]; rfl }
  else a

/-- The elements with index `j` behind the first axis. -/
def NdArray.column (a : NdArray F) (j : Nat) : List F :=
  (List.range (a.shape.headD 0)).filterMap fun i => a.data[i * a.shape.tail.prod + j]?

/-- `mean(axis=0)`. -/
def NdArray.meanFirst (mean : List F → F) (a : NdArray F) : NdArray F :=
  { shape := a.shape.tail
    data := (List.range a.shape.tail.prod).map fun j => mean (a.column j)
    size := by simp }

/-- The `wav_f32` of a result. -/
def toMono (mean : List F → F) (wav : NdArray F) : NdArray F :=
  let arr := wav.squeeze.ascontiguousarray
  if arr.ndim ≠ 1 then arr.meanFirst mean else arr

theorem ndim_ascontiguousarray (a : NdArray F) : a.ascontiguousarray.ndim = max 1 a.ndim := by
  unfold NdArray.ascontiguousarray NdArray.ndim
  split
  next h => rw [h]; rfl
  next h =>
    have hpos := List.length_pos_iff.mpr h
    omega

/-- **The worker's audio has one axis** exactly if the model's output has at most two axes of
a length other than 1. -/
theorem ndim_toMono (mean : List F → F) (wav : NdArray F) :
    (toMono mean wav).ndim = 1 ↔ (wav.shape.filter (· ≠ 1)).length ≤ 2 := by
  have hndim : wav.squeeze.ascontiguousarray.ndim = max 1 (wav.shape.filter (· ≠ 1)).length :=
    ndim_ascontiguousarray _
  have hmean : ∀ a : NdArray F, (a.meanFirst mean).ndim = a.ndim - 1 := fun a =>
    List.length_tail
  unfold toMono
  dsimp only
  split
  next h =>
    rw [hmean]
    omega
  next h => omega

/-- Of an output of shape `(1, N)`, as the model documents it, nothing is changed. -/
theorem data_toMono (mean : List F → F) {wav : NdArray F} {n : Nat} (h : wav.shape = [1, n]) :
    (toMono mean wav).data = wav.data := by
  have hndim : wav.squeeze.ascontiguousarray.ndim = 1 := by
    have hshape : wav.squeeze.ndim ≤ 1 := by
      unfold NdArray.squeeze NdArray.ndim
      dsimp only
      rw [h, List.filter_cons_of_neg (by simp)]
      exact List.length_filter_le ..
    rw [ndim_ascontiguousarray]
    omega
  unfold toMono
  dsimp only
  rw [if_neg (by simpa using hndim)]
  unfold NdArray.ascontiguousarray
  split
  next => rfl
  next => rfl

/-! ## The checks of `audio.py` -/

variable (ops : AudioOps F)

/-- `f32_to_int16`. -/
def f32ToInt16Array (wav : NdArray F) : Except String (List (BitVec 16)) :=
  if wav.ndim = 2 then
    if wav.shape.headD 0 ≠ 1 then
      .error s!"f32_to_int16 is mono only; got shape {shapeRepr wav.shape}"
    else .ok (f32ToInt16 ops wav.data)
  else if wav.ndim ≠ 1 then
    .error s!"f32_to_int16 expects 1-D or (1, N) input; got shape {shapeRepr wav.shape}"
  else .ok (f32ToInt16 ops wav.data)

/-- `resample`, of an array of floats. -/
def resampleArray (wav : NdArray F) (srcSr dstSr : Int) : Except String (NdArray F) :=
  if wav.ndim ≠ 1 then .error s!"resample is mono only; got shape {shapeRepr wav.shape}"
  else (resample ops wav.data srcSr dstSr).map .ofList

/-- `slice_into_frames`, of an array of `int16`. -/
def sliceArray (pcm : NdArray (BitVec 16)) (sampleRate : Int) (frameMs : ℚ) :
    Except String (List Bytes) :=
  if pcm.ndim ≠ 1 then
    .error s!"slice_into_frames is mono only; got shape {shapeRepr pcm.shape}"
  else sliceIntoFrames samplesPerFrame pcm.data sampleRate frameMs

/-- `arr[0]` of an array with the shape `(1, N)`. -/
def NdArray.firstRow (a : NdArray F) (h : a.shape.headD 0 = 1) : NdArray F :=
  { shape := a.shape.tail
    data := a.data
    size := by
      rw [a.size]
      cases hshape : a.shape with
      | nil => rfl
      | cons n rest =>
        rw [hshape] at h
        obtain rfl : n = 1 := h
        rw [List.prod_cons, one_mul, List.tail_cons] }

/-- `pipeline`. -/
def pipelineArray (wav : NdArray F) (srcSr dstSr : Int) (frameMs : ℚ := defaultFrameMs) :
    Except String (List Bytes) :=
  let arr := if h : wav.ndim = 2 ∧ wav.shape.headD 0 = 1 then wav.firstRow h.2 else wav
  if arr.ndim ≠ 1 then
    -- the shape reported is the one that came in
    .error s!"pipeline is mono only; got shape {shapeRepr wav.shape}"
  else do
    let arr ← if srcSr ≠ dstSr then resampleArray ops arr srcSr dstSr else pure arr
    let pcm ← f32ToInt16Array ops arr
    sliceArray (.ofList pcm) dstSr frameMs

/-- What `pipeline` takes: `(N,)` and `(1, N)`. -/
def NdArray.Mono (a : NdArray F) : Prop := a.ndim = 1 ∨ (a.ndim = 2 ∧ a.shape.headD 0 = 1)

instance (a : NdArray F) : Decidable a.Mono := inferInstanceAs (Decidable (_ ∨ _))

theorem f32ToInt16Array_line {wav : NdArray F} (h : wav.ndim = 1) :
    f32ToInt16Array ops wav = .ok (f32ToInt16 ops wav.data) := by
  unfold f32ToInt16Array
  rw [if_neg (by omega), if_neg (by omega)]

/-- Behind the first check no other shape check of `audio.py` can fail: `pipeline` works on
the elements, or reports the shape. -/
theorem pipelineArray_eq (wav : NdArray F) (srcSr dstSr : Int) (frameMs : ℚ) :
    pipelineArray ops wav srcSr dstSr frameMs =
      if wav.Mono then pipeline ops wav.data srcSr dstSr frameMs
      else .error s!"pipeline is mono only; got shape {shapeRepr wav.shape}" := by
  -- on a line everything goes on with the elements
  have hline : ∀ arr : NdArray F, arr.ndim = 1 → arr.data = wav.data →
      (do let arr ← if srcSr ≠ dstSr then resampleArray ops arr srcSr dstSr else pure arr
          let pcm ← f32ToInt16Array ops arr
          sliceArray (.ofList pcm) dstSr frameMs) = pipeline ops wav.data srcSr dstSr frameMs := by
    intro arr harr hdata
    unfold pipeline
    by_cases hsame : srcSr ≠ dstSr
    · rw [if_pos hsame, if_pos hsame, resampleArray, if_neg (by omega), hdata]
      cases resample ops wav.data srcSr dstSr with
      | error e => rfl
      | ok out => rfl
    · rw [if_neg hsame, if_neg hsame]
      show (do let pcm ← f32ToInt16Array ops arr; sliceArray (.ofList pcm) dstSr frameMs) = _
      rw [f32ToInt16Array_line ops harr, hdata]
      rfl
  unfold pipelineArray
  dsimp only
  by_cases hrow : wav.ndim = 2 ∧ wav.shape.headD 0 = 1
  · have hfirst : (wav.firstRow hrow.2).ndim = 1 := by
      show wav.shape.tail.length = 1
      rw [List.length_tail]
      exact congrArg (· - 1) hrow.1
    rw [dif_pos hrow, if_pos (show wav.Mono from Or.inr hrow), if_neg (by omega)]
    exact hline _ hfirst rfl
  · rw [dif_neg hrow]
    by_cases hone : wav.ndim = 1
    · rw [if_pos (show wav.Mono from Or.inl hone), if_neg (by omega)]
      exact hline wav hone rfl
    · have hmono : ¬ wav.Mono := fun h => h.elim hone hrow
      rw [if_neg hmono, if_pos hone]

/-- Of a line `pipeline` makes what it makes of the list. -/
@[simp] theorem pipelineArray_ofList (wav : List F) (srcSr dstSr : Int) :
    pipelineArray ops (.ofList wav) srcSr dstSr = pipeline ops wav srcSr dstSr := by
  rw [pipelineArray_eq, if_pos (show (NdArray.ofList wav).Mono from Or.inl rfl)]
  rfl

end SupertonicServer.Audio
