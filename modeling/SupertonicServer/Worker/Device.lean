import Mathlib.Data.List.Basic
import SupertonicServer.Coalescer.Chars

/-!
# The device

`cuda.py` and `_apply_device` of `worker.py`: which ONNX providers a worker's model is loaded
with. Looking for a GPU loads shared libraries into the process, and what it found is kept in
module globals (`Cuda`); `Gpu` is what there is to find at the moment. Whether a library can be
loaded may depend on those loaded before it.

The answer is kept for good (`isUsable_again`), so in one process a device always means the
same providers, whatever becomes of the GPU meanwhile (`applyDevice_again`).
-/

namespace SupertonicServer.Worker

open Coalescer (isspace)

structure Gpu where
  /-- the site-packages directories, in the order the set yields them -/
  sitePackages : List String
  isDir : String → Bool
  /-- `sorted(glob.glob(libdir/*.so*))` -/
  sharedObjects : String → List String
  /-- `CDLL` does not raise, with these libraries loaded -/
  dlopen : List String → String → Bool
  /-- the available providers and the directory of `onnxruntime`, where it is installed -/
  onnxruntime : Option (List String × String)

/-- `_preloaded`, `_cuda_usable`, and the libraries loaded so far. -/
structure Cuda where
  preloaded : Option Bool
  usable : Option Bool
  libraries : List String

def Cuda.init : Cuda := { preloaded := none, usable := none, libraries := [] }

/-- `os.path.join`, of a directory and a relative path. -/
def joinPath (dir name : String) : String :=
  if dir.isEmpty || dir.endsWith "/" then dir ++ name else dir ++ "/" ++ name

/-- `_COMPONENT_ORDER`. -/
def componentOrder : List String :=
  ["cuda_runtime", "cuda_nvrtc", "cublas", "cufft", "curand", "cudnn"]

/-- `_nvidia_lib_roots`. -/
def nvidiaLibRoots (gpu : Gpu) : List String :=
  (gpu.sitePackages.map fun sp => joinPath sp "nvidia").filter gpu.isDir

/-- The libraries `preload_cuda_libraries` tries, in order. -/
def librariesToTry (gpu : Gpu) : List String :=
  (nvidiaLibRoots gpu).flatMap fun nvidia =>
    componentOrder.flatMap fun component =>
      let libdir := joinPath (joinPath nvidia component) "lib"
      if gpu.isDir libdir then gpu.sharedObjects libdir else []

/-- `CDLL`; a library that cannot be loaded is passed over. -/
def tryLoad (gpu : Gpu) (libraries : List String) (so : String) : List String :=
  if gpu.dlopen libraries so then libraries ++ [so] else libraries

/-- `preload_cuda_libraries`. -/
def Cuda.preload (gpu : Gpu) (c : Cuda) : Bool × Cuda :=
  match c.preloaded with
  | some found => (found, c)
  | none =>
    let libraries := (librariesToTry gpu).foldl (tryLoad gpu) c.libraries
    let found := decide (c.libraries.length < libraries.length)
    (found, { c with preloaded := some found, libraries := libraries })

/-- `cuda_is_usable`. -/
def Cuda.isUsable (gpu : Gpu) (c : Cuda) : Bool × Cuda :=
  match c.usable with
  | some usable => (usable, c)
  | none =>
    let c := { c with usable := some false }
    match gpu.onnxruntime with
    | none => (false, c)
    | some (providers, dir) =>
      if "CUDAExecutionProvider" ∉ providers then (false, c)
      else
        let c := (c.preload gpu).2
        let providerSo := joinPath (joinPath dir "capi") "libonnxruntime_providers_cuda.so"
        if gpu.dlopen c.libraries providerSo then
          (true, { c with usable := some true, libraries := c.libraries ++ [providerSo] })
        else (false, c)

/-- `_CUDA_PROVIDERS`. -/
def cudaProviders : List String := ["CUDAExecutionProvider", "CPUExecutionProvider"]

/-- `_CPU_PROVIDERS`. -/
def cpuProviders : List String := ["CPUExecutionProvider"]

/-- `s.strip()`. -/
def stripSpaces (s : List Char) : List Char :=
  ((s.dropWhile isspace).reverse.dropWhile isspace).reverse

/-- `device.strip().lower()`; `lower` is `str.lower`. -/
def deviceName (lower : List Char → List Char) (device : List Char) : String :=
  String.ofList (lower (stripSpaces device))

/-- `_apply_device`: the providers it pins, or the message of a `ValueError`. -/
def applyDevice (lower : List Char → List Char) (repr : List Char → String) (gpu : Gpu)
    (c : Cuda) (device : List Char) : Except String (List String) × Cuda :=
  let device := deviceName lower device
  if device ∉ ["cuda", "gpu", "auto", "cpu"] then
    (.error s!"unknown device {repr device.toList}; expected 'cuda', 'cpu', or 'auto'", c)
  else if device = "cpu" then (.ok cpuProviders, c)
  else
    -- a GPU that was asked for and is not there is reported in the log only
    let (usable, c) := c.isUsable gpu
    (.ok (if usable then cudaProviders else cpuProviders), c)

/-! ## What is kept -/

theorem preload_usable (gpu : Gpu) (c : Cuda) : (c.preload gpu).2.usable = c.usable := by
  unfold Cuda.preload
  split
  next => rfl
  next => rfl

/-- The answer is written down. -/
theorem isUsable_usable (gpu : Gpu) (c : Cuda) :
    (c.isUsable gpu).2.usable = some (c.isUsable gpu).1 := by
  unfold Cuda.isUsable
  split
  next h => exact h
  next =>
    dsimp only
    split
    next => rfl
    next =>
      split
      next => rfl
      next =>
        split
        next => rfl
        next => exact preload_usable gpu _

/-- **`cuda_is_usable` answers once**: a second call repeats the first, whatever there is to
find by then, and loads nothing. -/
theorem isUsable_again (gpu gpu' : Gpu) (c : Cuda) :
    (c.isUsable gpu).2.isUsable gpu' = ((c.isUsable gpu).1, (c.isUsable gpu).2) := by
  rw [Cuda.isUsable, isUsable_usable]

/-- **One device, one list of providers**, in one process. -/
theorem applyDevice_again {lower : List Char → List Char} {repr repr' : List Char → String}
    {gpu gpu' : Gpu} {c c' : Cuda} {device : List Char} {providers : List String}
    (h : applyDevice lower repr gpu c device = (.ok providers, c')) :
    applyDevice lower repr' gpu' c' device = (.ok providers, c') := by
  unfold applyDevice at h ⊢
  dsimp only at h ⊢
  split at h
  next => exact absurd h (by simp)
  next hknown =>
    rw [if_neg hknown]
    split at h
    next hcpu =>
      rw [if_pos hcpu, ← (Prod.mk.inj h).1]
    next hgpu =>
      obtain ⟨hproviders, rfl⟩ := Prod.mk.inj h
      rw [if_neg hgpu, isUsable_again]
      exact Prod.ext hproviders rfl

end SupertonicServer.Worker
