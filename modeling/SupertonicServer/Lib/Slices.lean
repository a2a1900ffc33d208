import Mathlib.Data.Rat.Floor

/-!
# Slices of equal width

A list cut into `n` consecutive slices of `w` elements, as a byte buffer is framed: the
slices joined are the first `n * w` elements, and each is full when the list is long enough.
`(len + w - 1) / w` slices of width `w` cover `len` elements with less than `w` to spare.
-/

namespace SupertonicServer.Lib

variable {α : Type}

/-- Slice `i` starts at `i * w`. -/
def slices (w n : Nat) (xs : List α) : List (List α) :=
  (List.range n).map fun i => (xs.drop (i * w)).take w

@[simp] theorem length_slices (w n : Nat) (xs : List α) : (slices w n xs).length = n := by
  simp [slices]

/-- The slices in order are the front of the list. -/
theorem slices_flatten (w : Nat) (xs : List α) :
    ∀ n, (slices w n xs).flatten = xs.take (n * w)
  | 0 => by simp [slices]
  | n + 1 => by
    have hsnoc : slices w (n + 1) xs = slices w n xs ++ [(xs.drop (n * w)).take w] := by
      simp [slices, List.range_succ]
    rw [hsnoc, List.flatten_append, slices_flatten w xs n, Nat.succ_mul, List.take_add]
    simp

/-- Every slice is full when the list holds them all. -/
theorem length_of_mem_slices {w n : Nat} {xs : List α} (h : n * w ≤ xs.length) :
    ∀ slice ∈ slices w n xs, slice.length = w := by
  intro slice hs
  obtain ⟨i, hi, rfl⟩ := List.mem_map.mp hs
  have hend : (i + 1) * w ≤ n * w := Nat.mul_le_mul_right w (List.mem_range.mp hi)
  rw [Nat.succ_mul] at hend
  rw [List.length_take, List.length_drop]
  omega

/-! ## How many slices cover a list -/

theorem le_slices_mul (len : Nat) {w : Nat} (hw : 0 < w) : len ≤ (len + w - 1) / w * w := by
  have hmod := Nat.mod_lt (len + w - 1) hw
  have hdiv := Nat.div_add_mod (len + w - 1) w
  rw [Nat.mul_comm] at hdiv
  omega

theorem slices_mul_lt (len : Nat) {w : Nat} (hw : 0 < w) :
    (len + w - 1) / w * w < len + w := by
  have hdiv := Nat.div_mul_le_self (len + w - 1) w
  omega

/-- The count is the quotient rounded up. -/
theorem slices_eq_ceil (len : Nat) {w : Nat} (hw : 0 < w) :
    (len + w - 1) / w = ⌈(len : ℚ) / w⌉₊ := by
  have hpos : (0 : ℚ) < w := by exact_mod_cast hw
  apply le_antisymm
  · have hle : (len : ℚ) ≤ ⌈(len : ℚ) / w⌉₊ * w := (div_le_iff₀ hpos).mp (Nat.le_ceil _)
    have hnat : len ≤ ⌈(len : ℚ) / w⌉₊ * w := by exact_mod_cast hle
    have hlt := slices_mul_lt len hw
    apply Nat.le_of_lt_succ
    apply Nat.lt_of_mul_lt_mul_right (a := w)
    rw [Nat.succ_mul]
    omega
  · rw [Nat.ceil_le, div_le_iff₀ hpos]
    exact_mod_cast le_slices_mul len hw

end SupertonicServer.Lib
