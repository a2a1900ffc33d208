import SupertonicServer.Audio.Frames
import SupertonicServer.Session.Basic
import SupertonicServer.Wire.Grammar

/-!
# The output format of a context

A context keeps one field of the output format its first frame asks for, the sample rate.
The decoder accepts any container, any encoding and any positive rate; what is shipped is
raw little-endian `int16` at that rate, or an exception where a frame of 20 ms would hold no
sample, or where the rate is too large for a `float` (`accepted_format_served`).
-/

namespace SupertonicServer

open Wire (IncomingText LoadsResult OutputFormat Reads decode decodeObject_text)
open Audio (AudioOps FramesOf ResampleLength Servable f32ToInt16 frameSamples nativeSr pipeline
  pipeline_frames pipeline_ok_iff resample silentOps_resampleLength)

variable {F : Type}

/-- A text message comes from an object whose keys hold it. -/
theorem reads_of_decode {loads : String → LoadsResult} {raw : String} {m : IncomingText}
    (h : decode loads raw = .ok (.text m)) :
    ∃ obj, loads raw = .value (.obj obj) ∧ Reads obj m := by
  unfold decode at h
  split at h
  next => exact nomatch h
  next => exact nomatch h
  next => exact nomatch h
  next obj hloads => exact ⟨obj, hloads, (decodeObject_text (Except.ok.inj h)).1⟩
  next => exact nomatch h

/-- **What an accepted format is served as**: a result at the native rate is shipped exactly
when the accepted rate is at least 50 and below the limit of `float`, and then, whatever
container and encoding the format names, as raw little-endian `int16` samples at that rate. -/
theorem accepted_format_served {ops : AudioOps F} (hres : ResampleLength ops)
    {loads : String → LoadsResult} {raw : String} {m : IncomingText}
    (hdecode : decode loads raw = .ok (.text m)) {wav : List F} (hwav : wav ≠ []) :
    let sr := (makeContext m).outputSr
    sr = m.outputFormat.sampleRate ∧ 0 < sr ∧
    ((∃ frames, pipeline ops wav nativeSr sr = .ok frames) ↔ Servable sr) ∧
    ∀ frames, pipeline ops wav nativeSr sr = .ok frames →
      ∃ out, resample ops wav nativeSr sr = .ok out ∧
        out.length = ⌈(wav.length * sr : ℚ) / nativeSr⌉₊ ∧
        FramesOf (frameSamples sr) (f32ToInt16 ops out) frames := by
  intro sr
  obtain ⟨obj, -, hreads⟩ := reads_of_decode hdecode
  have hnative : 0 < nativeSr := by decide
  have hiff : (∃ frames, pipeline ops wav nativeSr sr = .ok frames) ↔ Servable sr :=
    pipeline_ok_iff ops wav hnative
  refine ⟨rfl, hreads.rate_pos, hiff, ?_⟩
  intro frames hpipe
  have hserve : Servable sr := hiff.mp ⟨frames, hpipe⟩
  obtain ⟨out, frames', hout, hlen, hpipe', hframes⟩ := pipeline_frames hres hwav hnative hserve
  obtain rfl : frames' = frames := Except.ok.inj (hpipe'.symm.trans hpipe)
  exact ⟨out, hout, hlen, hframes⟩

/-- A frame of a client that asks for the format. -/
def askFor (format : OutputFormat) : IncomingText :=
  { contextId := "x", transcript := "Hi.", continue_ := false
    voice := { mode := "id", id := "F1" }
    outputFormat := format }

/-- One sample for a client at fifty samples a second. -/
theorem accepted_format_served_at_fifty :
    let m := askFor ⟨"raw", "pcm_s16le", 50⟩
    decode (fun _ => .value (.obj m.print)) "" = .ok (.text m) ∧
    ((∃ frames, pipeline silentOps [()] nativeSr (makeContext m).outputSr = .ok frames) ↔
      Servable (makeContext m).outputSr) := by
  intro m
  have hdecode : decode (fun _ => .value (.obj m.print)) "" = .ok (.text m) := rfl
  have hserved := accepted_format_served silentOps_resampleLength hdecode
    (show [()] ≠ [] by simp)
  exact ⟨hdecode, hserved.2.2.1⟩

/-- Three formats are accepted and not served. A rate of ten samples a second makes `pipeline`
raise, and so does one of 401 digits; a client that asks for 32-bit floats in a WAV file gets the
two bytes of an `int16`. -/
theorem accepted_not_served :
    let slow := askFor ⟨"raw", "pcm_s16le", 10⟩
    let fast := askFor ⟨"raw", "pcm_s16le", 10 ^ 400⟩
    let floats := askFor ⟨"wav", "pcm_f32le", 50⟩
    (decode (fun _ => .value (.obj slow.print)) "" = .ok (.text slow) ∧
      ¬ ∃ frames, pipeline silentOps [()] nativeSr slow.outputFormat.sampleRate = .ok frames) ∧
    (decode (fun _ => .value (.obj fast.print)) "" = .ok (.text fast) ∧
      ¬ ∃ frames, pipeline silentOps [()] nativeSr fast.outputFormat.sampleRate = .ok frames) ∧
    decode (fun _ => .value (.obj floats.print)) "" = .ok (.text floats) ∧
    pipeline silentOps [()] nativeSr floats.outputFormat.sampleRate = .ok [[0, 0]] := by
  intro slow fast floats
  have hslow : ¬ Servable 10 := by decide +kernel
  have hfast : ¬ Servable (10 ^ 400) := by decide +kernel
  refine ⟨⟨rfl, ?_⟩, ⟨by decide +kernel, ?_⟩, rfl, ?_⟩
  · rw [pipeline_ok_iff silentOps [()] (by decide)]
    exact hslow
  · rw [pipeline_ok_iff silentOps [()] (by decide)]
    exact hfast
  · decide +kernel

end SupertonicServer
