import SupertonicServer.Wire.JsonRoundTrip

/-!
# What the JSON reader returns

The other direction of the round trip: whatever text it is given, the reader returns only
values that print and read back (`readJson_within`). A number has the parts its literal needs,
and an object comes out of `dict` with every key once.
-/

namespace SupertonicServer.Wire

open Lib (Reader forall_mem_of_all readDelimited_mem)
open Voices (maxStrDigits)

theorem readDigits_digits {s ds rest : List Char} (h : readDigits s = some (ds, rest)) :
    Digits ds := by
  unfold readDigits at h
  split at h
  next => exact absurd h (by simp)
  next hne =>
    obtain ⟨rfl, -⟩ := Prod.mk.inj (Option.some.inj h)
    exact ⟨hne, fun c hc => List.mem_takeWhile_imp hc⟩

theorem readNat_natural {s int rest : List Char} (h : readNat s = some (int, rest)) :
    Natural int := by
  cases s with
  | nil => exact absurd h (by simp [readNat])
  | cons c s =>
    rw [readNat] at h
    split at h
    next =>
      obtain ⟨rfl, -⟩ := Prod.mk.inj (Option.some.inj h)
      exact ⟨⟨by simp, forall_mem_of_all (by decide)⟩, fun _ => rfl⟩
    next hc =>
      have hds := readDigits_digits h
      refine ⟨hds, fun hzero => ?_⟩
      -- the digits start with the character that is no zero
      unfold readDigits at h
      split at h
      next => exact absurd h (by simp)
      next =>
        obtain ⟨rfl, -⟩ := Prod.mk.inj (Option.some.inj h)
        rw [List.takeWhile_cons] at hzero
        split at hzero
        next => exact absurd (Option.some.inj hzero) hc
        next => exact absurd hzero (by simp)

theorem readInt_parts {s int rest : List Char} (h : readInt s = some (int, rest)) :
    ∃ sign nat, Sign sign ∧ Natural nat ∧ int = sign ++ nat := by
  cases s with
  | nil => exact absurd h (by simp [readInt])
  | cons c s =>
    rw [readInt] at h
    split at h
    next =>
      obtain ⟨r, hr, hpair⟩ := Option.map_eq_some_iff.mp h
      obtain ⟨rfl, -⟩ := Prod.mk.inj hpair
      exact ⟨['-'], r.1, Or.inr rfl, readNat_natural hr, rfl⟩
    next => exact ⟨[], int, Or.inl rfl, readNat_natural h, rfl⟩

theorem readFrac_fraction (s : List Char) : Fraction (readFrac s).1 := by
  cases s with
  | nil => exact Or.inl rfl
  | cons c s =>
    rw [readFrac]
    split
    next hc =>
      split
      next ds rest hds => exact Or.inr ⟨ds, readDigits_digits hds, by rw [hc]⟩
      next => exact Or.inl rfl
    next => exact Or.inl rfl

theorem readSign_sign (s : List Char) :
    (readSign s).1 = [] ∨ (readSign s).1 = ['+'] ∨ (readSign s).1 = ['-'] := by
  cases s with
  | nil => exact Or.inl rfl
  | cons c s =>
    rw [readSign]
    split
    next hc =>
      rcases hc with rfl | rfl
      · exact Or.inr (Or.inl rfl)
      · exact Or.inr (Or.inr rfl)
    next => exact Or.inl rfl

theorem readExp_exponent (s : List Char) : Exponent (readExp s).1 := by
  cases s with
  | nil => exact Or.inl rfl
  | cons c s =>
    rw [readExp]
    split
    next hc =>
      split
      next ds rest hds =>
        exact Or.inr ⟨c, (readSign s).1, ds, hc, readSign_sign s, readDigits_digits hds, rfl⟩
      next => exact Or.inl rfl
    next => exact Or.inl rfl

/-- A natural number has no more digits than it was read from. -/
theorem length_toDigits_ofDigitChars {nat : List Char} (h : Digits nat) :
    (Nat.toDigits 10 (Nat.ofDigitChars 10 nat 0)).length ≤ nat.length := by
  rw [Nat.length_toDigits_le_iff (by decide) (List.length_pos_iff.mpr h.1),
    ← Voices.digitsValue_eq_ofDigitChars h.2]
  exact Voices.digitsValue_lt nat

theorem natAbs_intValue {sign nat : List Char} (hsign : Sign sign) (hnat : Digits nat) :
    (intValue (sign ++ nat)).natAbs = Nat.ofDigitChars 10 nat 0 := by
  rcases hsign with rfl | rfl
  · cases nat with
    | nil => exact absurd rfl hnat.1
    | cons c nat =>
      rw [List.nil_append, intValue, if_neg (digit_ne (hnat.2 c List.mem_cons_self)).1]
      exact Int.natAbs_natCast _
  · show (intValue ('-' :: nat)).natAbs = _
    rw [intValue, if_pos rfl, Int.natAbs_neg]
    exact Int.natAbs_natCast _

theorem readNumber_within (depth : Nat) {s rest : List Char} {v : Json}
    (h : readNumber s = some (v, rest)) : v.Within depth := by
  unfold readNumber at h
  split at h
  next => exact absurd h (by simp)
  next int rest₁ hint =>
    obtain ⟨sign, nat, hsign, hnat, rfl⟩ := readInt_parts hint
    dsimp only at h
    split at h
    next =>
      split at h
      next => exact absurd h (by simp)
      next hshort =>
        obtain ⟨rfl, -⟩ := Prod.mk.inj (Option.some.inj h)
        rw [countP_digits hsign hnat.1] at hshort
        refine .int depth ?_
        rw [ShortInt, natAbs_intValue hsign hnat.1]
        exact Nat.le_trans (length_toDigits_ofDigitChars hnat.1) (Nat.not_lt.mp hshort)
    next hsome =>
      obtain ⟨rfl, -⟩ := Prod.mk.inj (Option.some.inj h)
      refine .float depth (Or.inl ⟨sign, nat, _, _, hsign, hnat, readFrac_fraction rest₁,
        readExp_exponent _, ?_, String.toList_ofList⟩)
      by_cases hfrac : (readFrac rest₁).1 = []
      · exact Or.inr fun hexp => hsome ⟨hfrac, hexp⟩
      · exact Or.inl hfrac

theorem readWord_within (depth : Nat) {s rest : List Char} {v : Json}
    (h : readWord s = some (v, rest)) : v.Within depth := by
  obtain ⟨w, hw, hpair⟩ := Option.map_eq_some_iff.mp h
  obtain ⟨rfl, -⟩ := Prod.mk.inj hpair
  have hmem := List.mem_of_find?_eq_some hw
  simp only [words, List.mem_cons, List.not_mem_nil, or_false] at hmem
  rcases hmem with rfl | rfl | rfl | rfl | rfl | rfl
  · exact .null depth
  · exact .bool depth true
  · exact .bool depth false
  · exact .float depth (Or.inr (Or.inl rfl))
  · exact .float depth (Or.inr (Or.inr (Or.inl rfl)))
  · exact .float depth (Or.inr (Or.inr (Or.inr rfl)))

theorem readScalar_within (depth : Nat) {s rest : List Char} {v : Json}
    (h : readScalar s = some (v, rest)) : v.Within depth := by
  cases s with
  | nil => exact absurd h (by simp [readScalar])
  | cons c s =>
    rw [readScalar] at h
    split at h
    next =>
      obtain ⟨r, -, hpair⟩ := Option.map_eq_some_iff.mp h
      obtain ⟨rfl, -⟩ := Prod.mk.inj hpair
      exact .str depth _
    next =>
      rcases Option.or_eq_some_iff.mp h with hword | ⟨-, hnumber⟩
      · exact readWord_within depth hword
      · exact readNumber_within depth hnumber

theorem readMember_value {value : Reader Json} {s rest : List Char} {kv : String × Json}
    (h : readMember value s = some (kv, rest)) : ∃ s rest, value s = some (kv.2, rest) := by
  cases s with
  | nil => exact absurd h (by simp [readMember])
  | cons c s =>
    rw [readMember] at h
    split at h
    next =>
      split at h
      next => exact absurd h (by simp)
      next =>
        split at h
        next => exact absurd h (by simp)
        next =>
          split at h
          next =>
            obtain ⟨r, hr, hpair⟩ := Option.map_eq_some_iff.mp h
            obtain ⟨rfl, -⟩ := Prod.mk.inj hpair
            exact ⟨_, _, hr⟩
          next => exact absurd h (by simp)
    next => exact absurd h (by simp)

/-- **The reader returns such values only**, by induction on the depth. -/
theorem readValue_within (n depth : Nat) : ∀ {s rest : List Char} {v : Json},
    readValue n depth s = some (v, rest) → v.Within depth := by
  induction depth with
  | zero =>
    intro s rest v h
    cases s with
    | nil => exact absurd h (by simp [readValue])
    | cons c s => exact readScalar_within 0 h
  | succ depth ih =>
    intro s rest v h
    cases s with
    | nil => exact absurd h (by simp [readValue])
    | cons c s =>
      rw [readValue] at h
      split at h
      next =>
        obtain ⟨r, hr, hpair⟩ := Option.map_eq_some_iff.mp h
        obtain ⟨rfl, -⟩ := Prod.mk.inj hpair
        obtain ⟨hkeys, hmem⟩ := ofPairs_spec r.1
        refine .obj hkeys fun kv hkv => ?_
        obtain ⟨s, rest, hmember⟩ := readDelimited_mem hr kv (hmem kv hkv)
        obtain ⟨s, rest, hvalue⟩ := readMember_value hmember
        exact ih hvalue
      next =>
        split at h
        next =>
          obtain ⟨r, hr, hpair⟩ := Option.map_eq_some_iff.mp h
          obtain ⟨rfl, -⟩ := Prod.mk.inj hpair
          refine .arr fun v hv => ?_
          obtain ⟨s, rest, hvalue⟩ := readDelimited_mem hr v hv
          exact ih hvalue
        next => exact readScalar_within (depth + 1) h

theorem readJson_within {depth : Nat} {text : List Char} {v : Json}
    (h : readJson depth text = some v) : v.Within depth := by
  unfold readJson at h
  split at h
  next => exact absurd h (by simp)
  next w rest hread =>
    split at h
    next =>
      obtain rfl := Option.some.inj h
      exact readValue_within _ _ hread
    next => exact absurd h (by simp)

end SupertonicServer.Wire
