import Mathlib.Algebra.Order.Floor.Ring
import Mathlib.Data.Int.Log
import Mathlib.Tactic.Linarith
import Mathlib.Tactic.Positivity
import Mathlib.Tactic.Ring

/-!
# Rounding to a binary format

Round to nearest, ties to even, with a fixed number of significant bits and a least place, over
any ordered field with a floor. Nothing is too large for a format. Rounding keeps the order,
commutes with negation, leaves the numbers of the format alone, and errs by half a unit of the
last place at most.
-/

namespace SupertonicServer.Lib

variable {R : Type} [Field R] [LinearOrder R]

/-! ## To an integer -/

/-- No integer is nearer, and of two as near it is the even one. -/
def Nearest (x : R) (n : ℤ) : Prop := |(n : R) - x| < 1 / 2 ∨ (|(n : R) - x| = 1 / 2 ∧ n % 2 = 0)

theorem Nearest.le {x : R} {n : ℤ} (h : Nearest x n) : |(n : R) - x| ≤ 1 / 2 := by
  rcases h with h | ⟨h, -⟩
  · exact h.le
  · exact h.le

theorem Nearest.neg {x : R} {n : ℤ} (h : Nearest x n) : Nearest (-x) (-n) := by
  have hdist : |((-n : ℤ) : R) - -x| = |(n : R) - x| := by
    rw [← abs_neg]
    congr 1
    push_cast
    ring
  unfold Nearest
  rw [hdist]
  rcases h with h | ⟨h, heven⟩
  · exact Or.inl h
  · exact Or.inr ⟨h, by omega⟩

variable [IsStrictOrderedRing R]

theorem nearest_intCast (n : ℤ) : Nearest (n : R) n := Or.inl (by simp)

/-- A larger number has no smaller nearest integer. -/
theorem Nearest.mono {x y : R} {n m : ℤ} (hx : Nearest x n) (hy : Nearest y m) (h : x ≤ y) :
    n ≤ m := by
  by_contra hlt
  have hgap : (m : R) + 1 ≤ n := by exact_mod_cast Int.add_one_le_iff.mpr (not_le.mp hlt)
  have hxle := abs_le.mp hx.le
  have hyle := abs_le.mp hy.le
  -- there is room for a tie only, and then both are even
  have htie : n = m + 1 := by
    have hle : (n : R) ≤ m + 1 := by linarith
    have hn : n ≤ m + 1 := by exact_mod_cast hle
    omega
  rcases hx with hx | ⟨-, hn⟩
  · have := (abs_lt.mp hx).2
    linarith
  · rcases hy with hy | ⟨-, hm⟩
    · have := (abs_lt.mp hy).1
      linarith
    · omega

theorem Nearest.unique {x : R} {n m : ℤ} (hn : Nearest x n) (hm : Nearest x m) : n = m :=
  le_antisymm (hn.mono hm le_rfl) (hm.mono hn le_rfl)

variable [FloorRing R]

/-- The nearest integer, of two the even one. -/
def roundEven (x : R) : ℤ :=
  if x - ⌊x⌋ < 1 / 2 then ⌊x⌋
  else if 1 / 2 < x - ⌊x⌋ then ⌊x⌋ + 1
  else if ⌊x⌋ % 2 = 0 then ⌊x⌋
  else ⌊x⌋ + 1

theorem roundEven_nearest (x : R) : Nearest x (roundEven x) := by
  have hlow := Int.floor_le x
  have hhigh := Int.lt_floor_add_one x
  unfold roundEven
  split
  next h => exact Or.inl (abs_lt.mpr ⟨by linarith, by linarith⟩)
  next h =>
    split
    next h' =>
      refine Or.inl (abs_lt.mpr ?_)
      push_cast
      exact ⟨by linarith, by linarith⟩
    next h' =>
      have hhalf : x = ⌊x⌋ + 1 / 2 := by linarith
      split
      next heven =>
        refine Or.inr ⟨?_, heven⟩
        rw [abs_of_nonpos (by linarith)]
        linarith
      next hodd =>
        refine Or.inr ⟨?_, by omega⟩
        push_cast
        rw [abs_of_nonneg (by linarith)]
        linarith

theorem roundEven_mono {x y : R} (h : x ≤ y) : roundEven x ≤ roundEven y :=
  (roundEven_nearest x).mono (roundEven_nearest y) h

theorem roundEven_neg (x : R) : roundEven (-x) = -roundEven x :=
  (roundEven_nearest (-x)).unique (roundEven_nearest x).neg

@[simp] theorem roundEven_intCast (n : ℤ) : roundEven (n : R) = n :=
  (roundEven_nearest _).unique (nearest_intCast n)

theorem roundEven_sub_le (x : R) : |(roundEven x : R) - x| ≤ 1 / 2 := (roundEven_nearest x).le

/-! ## To a format -/

/-- The significant bits, and the exponent of the least place there is. -/
structure Format where
  precision : ℕ
  minExp : ℤ
  precision_pos : 0 < precision

variable (f : Format)

/-- The exponent of the last place of a number. -/
def Format.place (x : R) : ℤ := max (Int.log 2 |x| + 1 - f.precision) f.minExp

/-- The nearest number of the format. -/
def Format.round (x : R) : R := roundEven (x / 2 ^ f.place x) * 2 ^ f.place x

omit [FloorRing R] in
theorem unit_pos (e : ℤ) : (0 : R) < 2 ^ e := zpow_pos two_pos e

omit [IsStrictOrderedRing R] in
@[simp] theorem place_neg (x : R) : f.place (-x) = f.place x := by
  unfold Format.place
  rw [abs_neg]

theorem round_neg (x : R) : f.round (-x) = -f.round x := by
  unfold Format.round
  rw [place_neg, neg_div, roundEven_neg, Int.cast_neg, neg_mul]

@[simp] theorem round_zero : f.round (0 : R) = 0 := by
  have hzero : roundEven (0 : R) = 0 := by exact_mod_cast roundEven_intCast (R := R) 0
  unfold Format.round
  rw [zero_div, hzero, Int.cast_zero, zero_mul]

/-- Below `2 ^ (t + precision)` the places reach down to `t`. -/
theorem place_le {x : R} (hx : x ≠ 0) {t : ℤ} (ht : f.minExp ≤ t)
    (h : |x| < 2 ^ (t + f.precision)) : f.place x ≤ t := by
  have hlog : Int.log 2 |x| < t + f.precision :=
    (Int.lt_zpow_iff_log_lt (by norm_num) (abs_pos.mpr hx)).mp (by exact_mod_cast h)
  unfold Format.place
  omega

omit [FloorRing R] in
/-- A multiple of a higher place is one of a lower place. -/
theorem on_place {e t : ℤ} (h : e ≤ t) (m : ℤ) : ∃ k : ℤ, (m : R) * 2 ^ t = k * 2 ^ e := by
  have htwo : (2 : R) ≠ 0 := two_pos.ne'
  have hsplit : (2 : R) ^ t = 2 ^ (t - e).toNat * 2 ^ e := by
    rw [← zpow_natCast, ← zpow_add₀ htwo, Int.toNat_of_nonneg (by omega)]
    congr 1
    omega
  refine ⟨m * 2 ^ (t - e).toNat, ?_⟩
  rw [hsplit]
  push_cast
  ring

theorem round_le_of_place {x : R} {t m : ℤ} (ht : f.place x ≤ t) (h : x ≤ m * 2 ^ t) :
    f.round x ≤ m * 2 ^ t := by
  obtain ⟨k, hk⟩ := on_place (R := R) ht m
  rw [hk] at h ⊢
  have hle : x / 2 ^ f.place x ≤ k := (div_le_iff₀ (unit_pos _)).mpr h
  have hround := roundEven_mono hle
  rw [roundEven_intCast] at hround
  exact mul_le_mul_of_nonneg_right (by exact_mod_cast hround) (unit_pos _).le

theorem le_round_of_place {x : R} {t m : ℤ} (ht : f.place x ≤ t) (h : m * 2 ^ t ≤ x) :
    m * 2 ^ t ≤ f.round x := by
  have hneg := round_le_of_place f (x := -x) (m := -m) (t := t) (by simpa using ht)
    (by push_cast; linarith)
  rw [round_neg] at hneg
  push_cast at hneg
  linarith

theorem round_nonneg {x : R} (h : 0 ≤ x) : 0 ≤ f.round x := by
  have hle := le_round_of_place f (x := x) (m := 0) le_rfl (by simpa using h)
  simpa using hle

/-- On positive numbers: where the places differ, a power of two lies between. -/
theorem round_mono_pos {x y : R} (hx : 0 < x) (h : x ≤ y) : f.round x ≤ f.round y := by
  have hy : 0 < y := hx.trans_le h
  have hlog : Int.log 2 x ≤ Int.log 2 y := Int.log_mono_right hx h
  have hp := f.precision_pos
  by_cases hplace : f.place x = f.place y
  · unfold Format.round
    rw [hplace]
    have hle : x / 2 ^ f.place y ≤ y / 2 ^ f.place y :=
      div_le_div_of_nonneg_right h (unit_pos _).le
    exact mul_le_mul_of_nonneg_right (by exact_mod_cast roundEven_mono hle) (unit_pos _).le
  · have hxy : f.place x ≤ Int.log 2 y ∧ f.place y ≤ Int.log 2 y ∧ Int.log 2 x < Int.log 2 y := by
      unfold Format.place at hplace ⊢
      rw [abs_of_pos hx, abs_of_pos hy] at *
      omega
    obtain ⟨hpx, hpy, hlt⟩ := hxy
    have hbelow : x ≤ 2 ^ Int.log 2 y :=
      ((Int.lt_zpow_iff_log_lt (by norm_num) hx).mpr hlt).le.trans_eq (by norm_num)
    have habove : 2 ^ Int.log 2 y ≤ y := by
      have := Int.zpow_log_le_self (b := 2) (by norm_num) hy
      exact_mod_cast this
    have h₁ := round_le_of_place f (m := 1) hpx (by simpa using hbelow)
    have h₂ := le_round_of_place f (m := 1) hpy (by simpa using habove)
    exact h₁.trans h₂

/-- **Rounding keeps the order.** -/
theorem round_mono {x y : R} (h : x ≤ y) : f.round x ≤ f.round y := by
  rcases lt_trichotomy x 0 with hx | rfl | hx
  · by_cases hy : 0 ≤ y
    · have hneg := round_nonneg f (x := -x) (by linarith)
      rw [round_neg] at hneg
      linarith [round_nonneg f hy]
    · have hneg := round_mono_pos f (x := -y) (y := -x) (by linarith) (by linarith)
      rw [round_neg, round_neg] at hneg
      linarith
  · rw [round_zero]
    exact round_nonneg f h
  · exact round_mono_pos f hx h

/-- **The numbers of the format are left alone.** -/
theorem round_of_place {m t : ℤ} (hm : |m| < 2 ^ f.precision) (ht : f.minExp ≤ t) :
    f.round ((m : R) * 2 ^ t) = m * 2 ^ t := by
  by_cases hzero : m = 0
  · simp [hzero]
  · have hx : (m : R) * 2 ^ t ≠ 0 :=
      mul_ne_zero (by exact_mod_cast hzero) (unit_pos t).ne'
    have hsmall : |(m : R) * 2 ^ t| < 2 ^ (t + f.precision) := by
      have hunit : |(2 : R) ^ t| = 2 ^ t := abs_of_pos (unit_pos t)
      rw [abs_mul, hunit, zpow_add₀ two_ne_zero, mul_comm]
      refine mul_lt_mul_of_pos_left ?_ (unit_pos t)
      rw [zpow_natCast]
      exact_mod_cast hm
    have hplace := place_le f hx ht hsmall
    exact le_antisymm (round_le_of_place f hplace le_rfl) (le_round_of_place f hplace le_rfl)

theorem round_intCast (hexp : f.minExp ≤ 0) {n : ℤ} (hn : |n| < 2 ^ f.precision) :
    f.round (n : R) = n := by
  have hround := round_of_place f (R := R) hn hexp
  simpa using hround

/-- **The error is half a unit of the last place.** -/
theorem round_sub_le (x : R) : |f.round x - x| ≤ 2 ^ f.place x / 2 := by
  have hpos := unit_pos (R := R) (f.place x)
  have hsplit : f.round x - x =
      (roundEven (x / 2 ^ f.place x) - x / 2 ^ f.place x) * 2 ^ f.place x := by
    unfold Format.round
    field_simp
  rw [hsplit, abs_mul, abs_of_pos hpos]
  calc |(roundEven (x / 2 ^ f.place x) : R) - x / 2 ^ f.place x| * 2 ^ f.place x
      ≤ 1 / 2 * 2 ^ f.place x := mul_le_mul_of_nonneg_right (roundEven_sub_le _) hpos.le
    _ = 2 ^ f.place x / 2 := by ring

end SupertonicServer.Lib
