import Mathlib.Data.Rat.Floor
import SupertonicServer.Lib.Rounding

/-!
# The width of a frame

`int(sample_rate * frame_ms / 1000.0)` of `slice_into_frames`. Python computes it in floats: it
converts the rate, and rounds the product and the quotient. For frames of 20 ms the result is
the exact one up to a rate of `2 ^ 53 / 20` (`samplesPerFrame_exact`). It is positive from 50
samples a second on, and for rates with some three hundred digits there is none
(`samplesPerFrame_pos_iff`).
-/

namespace SupertonicServer.Audio

open Lib (Format round_intCast round_mono round_sub_le place_le)

/-- A way to compute the samples of a frame from a rate and a duration in milliseconds. -/
abbrev FrameWidth := ℚ → ℚ → Except String Int

/-- Without rounding. -/
def exactWidth : FrameWidth := fun sampleRate frameMs => .ok ⌊sampleRate * frameMs / 1000⌋

/-- The format of a `float`. -/
def binary64 : Format := { precision := 53, minExp := -1074, precision_pos := by decide }

/-- The `float` nearest to a number, unless that is infinite; the numbers here are positive. -/
def double (q : ℚ) : Option ℚ :=
  if binary64.round q < 2 ^ 1024 then some (binary64.round q) else none

/-- `int(sample_rate * frame_ms / 1000.0)`, of an integer rate. -/
def samplesPerFrame : FrameWidth := fun sampleRate frameMs =>
  match double sampleRate with
  | none => .error "int too large to convert to float"
  | some rate =>
    match double (rate * frameMs) with
    -- a quotient of infinity
    | none => .error "cannot convert float infinity to integer"
    | some product => .ok ⌊binary64.round (product / 1000)⌋

/-- `DEFAULT_FRAME_MS`. -/
def defaultFrameMs : ℚ := 20

/-- From here on 20 times the rate is infinite. -/
def rateLimit : Int := 2 ^ 966 * ((2 ^ 56 - 1) / 5)

/-- The rates at which `slice_into_frames` can make frames of 20 ms. -/
def Servable (sampleRate : Int) : Prop := 50 ≤ sampleRate ∧ sampleRate < rateLimit

instance (sampleRate : Int) : Decidable (Servable sampleRate) :=
  inferInstanceAs (Decidable (_ ∧ _))

theorem Servable.rate_pos {sampleRate : Int} (h : Servable sampleRate) : (0 : ℚ) < sampleRate := by
  have hrate : 50 ≤ sampleRate := h.1
  exact_mod_cast (by omega : 0 < sampleRate)

/-! ## Where it is exact -/

theorem binary64_intCast {n : Int} (h : |n| < 2 ^ 53) : binary64.round (n : ℚ) = n :=
  round_intCast binary64 (by decide) h

theorem double_of_lt {q : ℚ} (h : binary64.round q < 2 ^ 1024) :
    double q = some (binary64.round q) := if_pos h

/-- An integer below `2 ^ 53` is a `float`. -/
theorem double_intCast {n : Int} (h : |n| < 2 ^ 53) : double (n : ℚ) = some (n : ℚ) := by
  have hround := binary64_intCast h
  have hlt : (n : ℚ) < 2 ^ 1024 := by
    have hn : (n : ℚ) < 2 ^ 53 := by exact_mod_cast (le_abs_self n).trans_lt h
    exact hn.trans (pow_lt_pow_right₀ (by norm_num) (by norm_num))
  rw [double_of_lt (by rw [hround]; exact hlt), hround]

/-- A quotient by 1000 is a 1000th away from the next integer, and rounding moves it by less. -/
theorem floor_round_div {n : Int} (hpos : 0 < n) (hsmall : n < 2 ^ 53) :
    ⌊binary64.round ((n : ℚ) / 1000)⌋ = ⌊(n : ℚ) / 1000⌋ := by
  have hn : (n : ℚ) < 2 ^ 53 := by exact_mod_cast hsmall
  have hq : (0 : ℚ) < (n : ℚ) / 1000 := div_pos (by exact_mod_cast hpos) (by norm_num)
  have hk : ⌊(n : ℚ) / 1000⌋ = n / 1000 := by
    rw [show (1000 : ℚ) = ((1000 : ℕ) : ℚ) by norm_num, Rat.floor_intCast_div_natCast]
    rfl
  rw [hk, Int.floor_eq_iff]
  constructor
  · have hle : ((n / 1000 : Int) : ℚ) ≤ (n : ℚ) / 1000 := by
      rw [← hk]
      exact Int.floor_le _
    have hround := round_mono binary64 hle
    rwa [binary64_intCast (by rw [abs_of_nonneg (by omega)]; omega)] at hround
  · have hplace : binary64.place ((n : ℚ) / 1000) ≤ -9 := by
      refine place_le binary64 hq.ne' (by decide) ?_
      rw [abs_of_pos hq, show ((-9 : Int) + (binary64.precision : Int)) = 44 by rfl]
      norm_num
      linarith
    have herror := (abs_le.mp (round_sub_le binary64 ((n : ℚ) / 1000))).2
    have hunit : (2 : ℚ) ^ binary64.place ((n : ℚ) / 1000) ≤ 2 ^ (-9 : Int) :=
      zpow_le_zpow_right₀ (by norm_num) hplace
    have hgap : (n : ℚ) / 1000 ≤ ((n / 1000 : Int) : ℚ) + 999 / 1000 := by
      have hint : n ≤ 1000 * (n / 1000) + 999 := by omega
      have hcast : (n : ℚ) ≤ 1000 * ((n / 1000 : Int) : ℚ) + 999 := by exact_mod_cast hint
      linarith
    norm_num at hunit
    linarith

/-- **Up to `2 ^ 53 / 20` nothing is rounded away.** -/
theorem samplesPerFrame_exact {sampleRate : Int} (hpos : 0 < sampleRate)
    (hsmall : sampleRate * 20 < 2 ^ 53) :
    samplesPerFrame sampleRate defaultFrameMs = exactWidth sampleRate defaultFrameMs := by
  have hrate : double (sampleRate : ℚ) = some (sampleRate : ℚ) :=
    double_intCast (by rw [abs_of_pos hpos]; omega)
  have hcast : (sampleRate : ℚ) * defaultFrameMs = ((sampleRate * 20 : Int) : ℚ) := by
    rw [defaultFrameMs]
    push_cast
    rfl
  have hproduct : double ((sampleRate * 20 : Int) : ℚ) = some ((sampleRate * 20 : Int) : ℚ) :=
    double_intCast (by rw [abs_of_pos (by omega)]; exact hsmall)
  unfold samplesPerFrame exactWidth
  rw [hrate]
  dsimp only
  rw [hcast, hproduct]
  dsimp only
  rw [floor_round_div (by omega) hsmall]

/-! ## Where it is there and positive -/

/-- The quotient, where nothing overflows. -/
def roundedWidth (sampleRate : ℚ) : ℚ :=
  binary64.round (binary64.round (binary64.round sampleRate * defaultFrameMs) / 1000)

/-- The three roundings keep the order of the rates. -/
theorem roundedWidth_mono {a b : ℚ} (h : a ≤ b) : roundedWidth a ≤ roundedWidth b := by
  refine round_mono binary64 (div_le_div_of_nonneg_right ?_ (by norm_num))
  refine round_mono binary64 ?_
  exact mul_le_mul_of_nonneg_right (round_mono binary64 h) (by norm_num [defaultFrameMs])

/-- Below the limit neither the rate nor its product overflows. -/
theorem double_of_lt_limit {sampleRate : Int} (h : sampleRate < rateLimit) :
    double (sampleRate : ℚ) = some (binary64.round (sampleRate : ℚ)) ∧
    double (binary64.round (sampleRate : ℚ) * defaultFrameMs) =
      some (binary64.round (binary64.round (sampleRate : ℚ) * defaultFrameMs)) := by
  have hle : (sampleRate : ℚ) ≤ ((rateLimit - 1 : Int) : ℚ) := by
    exact_mod_cast Int.le_sub_one_of_lt h
  have hrate := round_mono binary64 hle
  have hproduct : binary64.round (sampleRate : ℚ) * defaultFrameMs ≤
      binary64.round ((rateLimit - 1 : Int) : ℚ) * defaultFrameMs :=
    mul_le_mul_of_nonneg_right hrate (by norm_num [defaultFrameMs])
  exact ⟨double_of_lt (hrate.trans_lt (by decide +kernel)),
    double_of_lt ((round_mono binary64 hproduct).trans_lt (by decide +kernel))⟩

theorem samplesPerFrame_of_lt {sampleRate : Int} (h : sampleRate < rateLimit) :
    samplesPerFrame sampleRate defaultFrameMs = .ok ⌊roundedWidth sampleRate⌋ := by
  obtain ⟨hrate, hproduct⟩ := double_of_lt_limit h
  unfold samplesPerFrame
  rw [hrate]
  dsimp only
  rw [hproduct]
  rfl

/-- From the limit on one of them does. -/
theorem samplesPerFrame_of_le {sampleRate : Int} (h : rateLimit ≤ sampleRate) :
    ∃ message, samplesPerFrame sampleRate defaultFrameMs = .error message := by
  have hle : ((rateLimit : Int) : ℚ) ≤ (sampleRate : ℚ) := by exact_mod_cast h
  have hrate := round_mono binary64 hle
  have hproduct : binary64.round ((rateLimit : Int) : ℚ) * defaultFrameMs ≤
      binary64.round (sampleRate : ℚ) * defaultFrameMs :=
    mul_le_mul_of_nonneg_right hrate (by norm_num [defaultFrameMs])
  have hlarge :=
    (show (2 : ℚ) ^ 1024 ≤ binary64.round (binary64.round (rateLimit : ℚ) * defaultFrameMs) by
      decide +kernel).trans (round_mono binary64 hproduct)
  unfold samplesPerFrame
  by_cases hover : binary64.round (sampleRate : ℚ) < 2 ^ 1024
  · rw [double_of_lt hover]
    dsimp only
    rw [double, if_neg (not_lt.mpr hlarge)]
    exact ⟨_, rfl⟩
  · rw [double, if_neg hover]
    exact ⟨_, rfl⟩

/-- **A frame of 20 ms has a width, and that is positive**, exactly at the rates from 50 samples
a second up to the limit. -/
theorem samplesPerFrame_pos_iff (sampleRate : Int) :
    (∃ spf, samplesPerFrame sampleRate defaultFrameMs = .ok spf ∧ 0 < spf) ↔
      Servable sampleRate := by
  by_cases hlimit : sampleRate < rateLimit
  · rw [samplesPerFrame_of_lt hlimit]
    constructor
    · intro h
      obtain ⟨spf, hspf, hpos⟩ := h
      refine ⟨?_, hlimit⟩
      by_contra hslow
      have hle : (sampleRate : ℚ) ≤ ((49 : Int) : ℚ) := by
        exact_mod_cast (by omega : sampleRate ≤ 49)
      have hsmall : roundedWidth ((49 : Int) : ℚ) < 1 := by decide +kernel
      obtain rfl := Except.ok.inj hspf
      have hone : ((1 : Int) : ℚ) ≤ roundedWidth sampleRate := Int.le_floor.mp hpos
      have hless := (hone.trans (roundedWidth_mono hle)).trans_lt hsmall
      exact absurd hless (by norm_num)
    · intro h
      have hle : ((50 : Int) : ℚ) ≤ (sampleRate : ℚ) := by exact_mod_cast h.1
      have hone : ((1 : Int) : ℚ) ≤ roundedWidth ((50 : Int) : ℚ) := by decide +kernel
      exact ⟨_, rfl, Int.le_floor.mpr (hone.trans (roundedWidth_mono hle))⟩
  · obtain ⟨message, herror⟩ := samplesPerFrame_of_le (not_lt.mp hlimit)
    rw [herror]
    exact iff_of_false (by simp) (fun h => hlimit h.2)

/-- The width in samples, and none where there is none. -/
def frameSamples (sampleRate : Int) (frameMs : ℚ := defaultFrameMs) : Nat :=
  match samplesPerFrame sampleRate frameMs with
  | .ok spf => spf.toNat
  | .error _ => 0

/-- At a rate that can be served the width is what the code computes. -/
theorem Servable.width {sampleRate : Int} (h : Servable sampleRate) :
    samplesPerFrame sampleRate defaultFrameMs = .ok (frameSamples sampleRate : Int) ∧
      0 < frameSamples sampleRate := by
  obtain ⟨spf, hspf, hpos⟩ := (samplesPerFrame_pos_iff sampleRate).mpr h
  unfold frameSamples
  rw [hspf]
  dsimp only
  refine ⟨?_, by omega⟩
  rw [Int.toNat_of_nonneg (by omega)]

theorem Servable.width_exact {sampleRate : Int} (h : Servable sampleRate)
    (hsmall : sampleRate * 20 < 2 ^ 53) :
    (frameSamples sampleRate : Int) = ⌊(sampleRate * 20 : ℚ) / 1000⌋ := by
  have hpos : 50 ≤ sampleRate := h.1
  have hwidth := h.width.1
  rw [samplesPerFrame_exact (by omega) hsmall] at hwidth
  exact (Except.ok.inj hwidth).symm

end SupertonicServer.Audio
