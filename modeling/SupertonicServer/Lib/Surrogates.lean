import Mathlib.Data.List.Basic

/-!
# Surrogate pairs

The UTF-16 code units of a text and the text of a list of units. A character of the basic
plane is one unit, any other one a high and a low surrogate; a surrogate without its partner
stands for no character. Reading the units of a text gives the text (`joinUnits_units`).

`joinUnits` also takes whole characters above the basic plane as units, for texts in which
only some characters are written as units.
-/

namespace SupertonicServer.Lib

/-- The code units of a character. -/
def units (c : Char) : List Nat :=
  if c.toNat < 0x10000 then [c.toNat]
  else [0xd800 + (c.toNat - 0x10000) / 0x400, 0xdc00 + (c.toNat - 0x10000) % 0x400]

def IsHigh (u : Nat) : Prop := 0xd800 ≤ u ∧ u < 0xdc00

def IsLow (u : Nat) : Prop := 0xdc00 ≤ u ∧ u < 0xe000

instance (u : Nat) : Decidable (IsHigh u) := inferInstanceAs (Decidable (_ ∧ _))

instance (u : Nat) : Decidable (IsLow u) := inferInstanceAs (Decidable (_ ∧ _))

/-- The text of a list of units; `none` where a surrogate is alone. -/
def joinUnits : List Nat → Option (List Char)
  | [] => some []
  | u :: us =>
    if IsHigh u then
      match us with
      | [] => none
      | l :: us =>
        if IsLow l then
          (joinUnits us).map (Char.ofNat (0x10000 + (u - 0xd800) * 0x400 + (l - 0xdc00)) :: ·)
        else none
    else if u.isValidChar then (joinUnits us).map (Char.ofNat u :: ·)
    else none

theorem not_isHigh_toNat (c : Char) : ¬ IsHigh c.toNat := by
  intro h
  have hvalid := c.valid
  obtain ⟨hlo, hhi⟩ := h
  rcases hvalid with hv | hv
  · have : c.toNat < 0xd800 := hv
    omega
  · have : 0xdfff < c.toNat := hv.1
    omega

/-- A unit that is a character stands for itself. -/
theorem joinUnits_char (c : Char) (us : List Nat) :
    joinUnits (c.toNat :: us) = (joinUnits us).map (c :: ·) := by
  have hvalid : c.toNat.isValidChar := c.valid
  rw [joinUnits.eq_def]
  dsimp only
  rw [if_neg (not_isHigh_toNat c), if_pos hvalid, Char.ofNat_toNat]

/-- The units of a character stand for it. -/
theorem joinUnits_units_append (c : Char) (us : List Nat) :
    joinUnits (units c ++ us) = (joinUnits us).map (c :: ·) := by
  unfold units
  split
  next => exact joinUnits_char c us
  next hbig =>
    have hlt : c.toNat < 0x110000 := by
      rcases c.valid with hv | hv
      · have : c.toNat < 0xd800 := hv
        omega
      · exact hv.2
    have hhigh : IsHigh (0xd800 + (c.toNat - 0x10000) / 0x400) := by
      constructor <;> omega
    have hlow : IsLow (0xdc00 + (c.toNat - 0x10000) % 0x400) := by
      constructor <;> omega
    have hback : 0x10000 + (0xd800 + (c.toNat - 0x10000) / 0x400 - 0xd800) * 0x400 +
        (0xdc00 + (c.toNat - 0x10000) % 0x400 - 0xdc00) = c.toNat := by
      omega
    rw [List.cons_append, List.cons_append, List.nil_append, joinUnits.eq_def]
    dsimp only
    rw [if_pos hhigh, if_pos hlow, hback, Char.ofNat_toNat]

/-- **The units of a text read back as the text.** -/
theorem joinUnits_units (s : List Char) : joinUnits (s.flatMap units) = some s := by
  induction s with
  | nil => rfl
  | cons c s ih => rw [List.flatMap_cons, joinUnits_units_append, ih, Option.map_some]

end SupertonicServer.Lib
