import Mathlib.Algebra.Group.Nat.Defs
import Mathlib.Data.List.Basic

/-!
# Python's decimal numerals

What `\d` matches and `int` reads: every character of category `Nd`, of any script, in ten
consecutive code points for each zero (the Unicode version of `requires-python >= 3.12`).
`str` writes a number in ASCII digits without leading zeros, so reading and writing a numeral
gives it back in that form only (`digitsValue_toDigits`).
-/

namespace SupertonicServer.Voices

/-- The zeros of category `Nd`. -/
def decimalZeros : List Nat :=
  [0x0030, 0x0660, 0x06F0, 0x07C0, 0x0966, 0x09E6, 0x0A66, 0x0AE6, 0x0B66, 0x0BE6, 0x0C66, 0x0CE6,
   0x0D66, 0x0DE6, 0x0E50, 0x0ED0, 0x0F20, 0x1040, 0x1090, 0x17E0, 0x1810, 0x1946, 0x19D0, 0x1A80,
   0x1A90, 0x1B50, 0x1BB0, 0x1C40, 0x1C50, 0xA620, 0xA8D0, 0xA900, 0xA9D0, 0xA9F0, 0xAA50, 0xABF0,
   0xFF10, 0x104A0, 0x10D30, 0x11066, 0x110F0, 0x11136, 0x111D0, 0x112F0, 0x11450, 0x114D0,
   0x11650, 0x116C0, 0x11730, 0x118E0, 0x11950, 0x11C50, 0x11D50, 0x11DA0, 0x11F50, 0x16A60,
   0x16AC0, 0x16B50, 0x1D7CE, 0x1D7D8, 0x1D7E2, 0x1D7EC, 0x1D7F6, 0x1E140, 0x1E2F0, 0x1E4F0,
   0x1E950, 0x1FBF0]

/-- The value of a decimal digit. -/
def decimal (c : Char) : Option Nat :=
  (decimalZeros.find? fun z => z ≤ c.toNat && c.toNat < z + 10).map (c.toNat - ·)

/-- `\d` on one character. -/
def isdecimal (c : Char) : Bool := (decimal c).isSome

/-- The number a run of decimal digits stands for. -/
def digitsValue (num : List Char) : Nat :=
  num.foldl (fun value c => 10 * value + (decimal c).getD 0) 0

/-- `sys.int_info.default_max_str_digits`. -/
def maxStrDigits : Nat := 4300

/-- `int` on a nonempty run of decimal digits, which raises `ValueError` on long ones. -/
def int (num : List Char) : Except String Nat :=
  if maxStrDigits < num.length then
    .error (s!"Exceeds the limit ({maxStrDigits} digits) for integer string conversion: " ++
      s!"value has {num.length} digits; use sys.set_int_max_str_digits() to increase the limit")
  else .ok (digitsValue num)

theorem int_ok_iff {num : List Char} {n : Nat} :
    int num = .ok n ↔ num.length ≤ maxStrDigits ∧ n = digitsValue num := by
  unfold int
  split
  next hlong => exact iff_of_false (by simp) (by omega)
  next hshort =>
    rw [Except.ok.injEq]
    constructor
    · intro h
      exact ⟨by omega, h.symm⟩
    · intro h
      exact h.2.symm

/-- The digits `str` writes. -/
theorem decimal_of_isDigit {c : Char} (h : c.isDigit = true) :
    decimal c = some (c.toNat - '0'.toNat) := by
  have hrange : 0x30 ≤ c.toNat ∧ c.toNat < 0x30 + 10 := by
    simp only [Char.isDigit, Bool.and_eq_true, decide_eq_true_eq, UInt32.le_iff_toNat_le] at h
    have h1 : 48 ≤ c.toNat := h.1
    have h2 : c.toNat ≤ 57 := h.2
    omega
  have hfind : decimalZeros.find? (fun z => z ≤ c.toNat && c.toNat < z + 10) =
      some 0x30 := by
    unfold decimalZeros
    rw [List.find?_cons_of_pos]
    simpa using hrange
  rw [decimal, hfind]
  rfl

theorem isdecimal_of_mem_toDigits {n : Nat} {c : Char} (h : c ∈ Nat.toDigits 10 n) :
    isdecimal c = true := by
  rw [isdecimal, decimal_of_isDigit (Nat.isDigit_of_mem_toDigits (by decide) (by decide) h)]
  rfl

/-- On ASCII digits the value is the usual one. -/
theorem digitsValue_eq_ofDigitChars {num : List Char} (h : ∀ c ∈ num, c.isDigit = true) :
    digitsValue num = Nat.ofDigitChars 10 num 0 := by
  rw [digitsValue, Nat.ofDigitChars_eq_foldl]
  apply List.foldl_ext
  intro value c hc
  rw [decimal_of_isDigit (h c hc)]
  rfl

/-- `int(str(n)) == n`. -/
theorem digitsValue_toDigits (n : Nat) : digitsValue (Nat.toDigits 10 n) = n := by
  have hdigits : ∀ c ∈ Nat.toDigits 10 n, c.isDigit = true :=
    fun c hc => Nat.isDigit_of_mem_toDigits (by decide) (by decide) hc
  rw [digitsValue_eq_ofDigitChars hdigits, Nat.ofDigitChars_ten_toDigits]

theorem decimal_lt {c : Char} {d : Nat} (h : decimal c = some d) : d < 10 := by
  obtain ⟨z, hz, rfl⟩ := Option.map_eq_some_iff.mp h
  have hrange := List.find?_some hz
  simp only [Bool.and_eq_true, decide_eq_true_eq] at hrange
  omega

/-- A number has no more digits than it was read from. -/
theorem digitsValue_lt (num : List Char) : digitsValue num < 10 ^ num.length := by
  -- on the digits left, with the value of those already read
  have hfold : ∀ (num : List Char) (value : Nat),
      num.foldl (fun value c => 10 * value + (decimal c).getD 0) value <
        (value + 1) * 10 ^ num.length := by
    intro num
    induction num with
    | nil => intro value; simp
    | cons c num ih =>
      intro value
      have hdigit : (decimal c).getD 0 < 10 := by
        cases hc : decimal c with
        | none => simp
        | some d => exact decimal_lt hc
      have hstep : (10 * value + (decimal c).getD 0 + 1) * 10 ^ num.length ≤
          (value + 1) * 10 * 10 ^ num.length :=
        Nat.mul_le_mul_right _ (by omega)
      rw [List.foldl_cons, List.length_cons, Nat.pow_succ', ← Nat.mul_assoc]
      exact Nat.lt_of_lt_of_le (ih _) hstep
  have h := hfold num 0
  rw [Nat.zero_add, Nat.one_mul] at h
  exact h

/-- `int(str(int(num))) == int(num)`, and neither `int` after the first raises. -/
theorem int_toDigits {num : List Char} {n : Nat} (hnum : num ≠ []) (h : int num = .ok n) :
    int (Nat.toDigits 10 n) = .ok n := by
  obtain ⟨hlen, rfl⟩ := int_ok_iff.mp h
  refine int_ok_iff.mpr ⟨?_, (digitsValue_toDigits _).symm⟩
  have hshort : (Nat.toDigits 10 (digitsValue num)).length ≤ num.length :=
    (Nat.length_toDigits_le_iff (by decide) (List.length_pos_iff.mpr hnum)).mpr
      (digitsValue_lt num)
  omega

end SupertonicServer.Voices
