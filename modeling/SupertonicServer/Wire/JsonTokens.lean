import SupertonicServer.Wire.JsonText

/-!
# The tokens of JSON, printed and read

Strings, integers, floats and words: what the printer writes for them is what the reader takes
off the front of a text. A string may be followed by anything; a number only by a character
that does not continue it (`Follow`), which a separator, a closing bracket and the end of the
text do not.
-/

namespace SupertonicServer.Wire

open Lib (StopsAt stopsAt_cons takeWhile_run units joinUnits_units)
open Voices (maxStrDigits)

/-! ## Strings -/

theorem hexVal_hexDigit (n : Nat) : hexVal (hexDigit n) = some (n % 16) := by
  have hall : ∀ d < 16, hexVal (Nat.digitChar d) = some d := by decide
  exact hall (n % 16) (Nat.mod_lt n (by decide))

theorem hex4_hexDigit {u : Nat} (hu : u < 0x10000) :
    hex4 (hexDigit (u / 4096)) (hexDigit (u / 256)) (hexDigit (u / 16)) (hexDigit u) = some u := by
  have hval : ((u / 4096 % 16 * 16 + u / 256 % 16) * 16 + u / 16 % 16) * 16 + u % 16 = u := by
    omega
  simp only [hex4, hexVal_hexDigit, Option.bind_eq_bind, Option.bind_some, Option.pure_def, hval]

/-- The code units in front of those of a rest. -/
def addUnits (us : List Nat) (r : Option (List Nat × List Char)) : Option (List Nat × List Char) :=
  r.map fun r => (us ++ r.1, r.2)

@[simp] theorem addUnits_nil (r : Option (List Nat × List Char)) : addUnits [] r = r := by
  cases r <;> rfl

theorem addUnits_append (us vs : List Nat) (r : Option (List Nat × List Char)) :
    addUnits (us ++ vs) r = addUnits us (addUnits vs r) := by
  cases r with
  | none => rfl
  | some r => simp [addUnits]

theorem scanUnits_unicodeEscape {u : Nat} (hu : u < 0x10000) (rest : List Char) :
    scanUnits (unicodeEscape u ++ rest) = addUnits [u] (scanUnits rest) := by
  have hquote : ('\\' : Char) ≠ '"' := by decide
  rw [unicodeEscape]
  simp only [List.cons_append, List.nil_append]
  rw [scanUnits.eq_def]
  dsimp only
  rw [if_neg hquote, if_pos rfl, if_pos rfl, hex4_hexDigit hu]
  rfl

theorem scanUnits_flatMap_unicodeEscape {us : List Nat} (hus : ∀ u ∈ us, u < 0x10000)
    (rest : List Char) :
    scanUnits (us.flatMap unicodeEscape ++ rest) = addUnits us (scanUnits rest) := by
  induction us with
  | nil => simp
  | cons u us ih =>
    rw [List.forall_mem_cons] at hus
    rw [List.flatMap_cons, List.append_assoc, scanUnits_unicodeEscape hus.1, ih hus.2,
      ← addUnits_append]
    rfl

/-- The code units of a character fit four digits. -/
theorem units_lt (c : Char) : ∀ u ∈ units c, u < 0x10000 := by
  intro u hu
  have hlt : c.toNat < 0x110000 := by
    rcases c.valid with hv | hv
    · have : c.toNat < 0xd800 := hv
      omega
    · exact hv.2
  unfold units at hu
  split at hu
  next h =>
    rw [List.mem_singleton.mp hu]
    exact h
  next h =>
    simp only [List.mem_cons, List.not_mem_nil, or_false] at hu
    rcases hu with hu | hu
    · omega
    · omega

/-- A letter that is escaped comes back from its escape, which is no `u`. -/
theorem unescape_of_lookup {c e : Char} (h : escapes.lookup c = some e) :
    unescape e = some c ∧ e ≠ 'u' ∧ units c = [c.toNat] := by
  have hmem : (c, e) ∈ escapes := by
    obtain ⟨l₁, l₂, hsplit, -⟩ := List.lookup_eq_some_iff.mp h
    rw [hsplit]
    simp
  simp only [escapes, List.mem_cons, Prod.mk.injEq, List.not_mem_nil, or_false] at hmem
  rcases hmem with ⟨rfl, rfl⟩ | ⟨rfl, rfl⟩ | ⟨rfl, rfl⟩ | ⟨rfl, rfl⟩ | ⟨rfl, rfl⟩ | ⟨rfl, rfl⟩ |
    ⟨rfl, rfl⟩
  all_goals exact ⟨by decide, by decide, by decide⟩

theorem scanUnits_escapeChar (c : Char) (rest : List Char) :
    scanUnits (escapeChar c ++ rest) = addUnits (units c) (scanUnits rest) := by
  have hquote : ('\\' : Char) ≠ '"' := by decide
  unfold escapeChar
  split
  next e he =>
    -- an escape of one letter
    obtain ⟨hback, hu, hunits⟩ := unescape_of_lookup he
    simp only [List.cons_append, List.nil_append]
    rw [scanUnits.eq_def]
    dsimp only
    rw [if_neg hquote, if_pos rfl, if_neg hu, hback, hunits]
    rfl
  next hnone =>
    split
    next hprint =>
      -- a printable character that stands for itself
      have hc1 : c ≠ '"' := by
        intro hc
        rw [hc] at hnone
        exact absurd hnone (by decide)
      have hc2 : c ≠ '\\' := by
        intro hc
        rw [hc] at hnone
        exact absurd hnone (by decide)
      have hlo : 32 ≤ c.toNat := hprint.1
      have hhi : c.toNat ≤ 126 := hprint.2
      have hunits : units c = [c.toNat] := by
        rw [units, if_pos (by omega)]
      rw [List.cons_append, List.nil_append, scanUnits.eq_def]
      dsimp only
      rw [if_neg hc1, if_neg hc2, if_neg (by omega), hunits]
      rfl
    next => exact scanUnits_flatMap_unicodeEscape (units_lt c) rest

theorem scanUnits_escaped (s rest : List Char) :
    scanUnits (s.flatMap escapeChar ++ '"' :: rest) = some (s.flatMap units, rest) := by
  induction s with
  | nil =>
    rw [List.flatMap_nil, List.nil_append, scanUnits.eq_def]
    dsimp only
    rw [if_pos rfl]
    rfl
  | cons c s ih =>
    rw [List.flatMap_cons, List.append_assoc, scanUnits_escapeChar, ih]
    rfl

/-- A printed string reads back behind its opening quote. -/
theorem scanString_escaped (s : String) (rest : List Char) :
    scanString (s.toList.flatMap escapeChar ++ '"' :: rest) = some (s, rest) := by
  rw [scanString, scanUnits_escaped]
  dsimp only
  rw [joinUnits_units, Option.map_some, String.ofList_toList]

theorem dumpsStr_append (s : String) (rest : List Char) :
    dumpsStr s ++ rest = '"' :: (s.toList.flatMap escapeChar ++ '"' :: rest) := by
  simp [dumpsStr]

/-! ## Numbers -/

/-- A character that would continue a number. -/
def continues (c : Char) : Bool := c.isDigit || c == '.' || c == 'e' || c == 'E'

/-- What may stand behind a value. -/
def Follow (rest : List Char) : Prop := StopsAt continues rest

theorem Follow.stopsAt {rest : List Char} (h : Follow rest) {more : Char → Bool}
    (hmore : ∀ c, more c = true → continues c = true) : StopsAt more rest := by
  intro c hc
  cases hm : more c with
  | false => rfl
  | true =>
    have := h c hc
    rw [hmore c hm] at this
    exact absurd this (by simp)

theorem Follow.noDigit {rest : List Char} (h : Follow rest) : StopsAt Char.isDigit rest :=
  h.stopsAt fun c hc => by simp [continues, hc]

/-- One or more digits. -/
def Digits (ds : List Char) : Prop := ds ≠ [] ∧ ∀ c ∈ ds, c.isDigit = true

/-- An integer without its sign: a zero, or digits that do not start with one. -/
def Natural (ds : List Char) : Prop := Digits ds ∧ (ds.head? = some '0' → ds = ['0'])

def Sign (sign : List Char) : Prop := sign = [] ∨ sign = ['-']

/-- A fraction, or nothing. -/
def Fraction (frac : List Char) : Prop := frac = [] ∨ ∃ ds, Digits ds ∧ frac = '.' :: ds

/-- An exponent, or nothing. -/
def Exponent (exp : List Char) : Prop :=
  exp = [] ∨ ∃ e sign ds, (e = 'e' ∨ e = 'E') ∧ (sign = [] ∨ sign = ['+'] ∨ sign = ['-']) ∧
    Digits ds ∧ exp = e :: sign ++ ds

/-- The literals that stand for a float. -/
def FloatLiteral (literal : List Char) : Prop :=
  (∃ sign int frac exp, Sign sign ∧ Natural int ∧ Fraction frac ∧ Exponent exp ∧
    (frac ≠ [] ∨ exp ≠ []) ∧ literal = sign ++ int ++ frac ++ exp) ∨
  literal = "NaN".toList ∨ literal = "Infinity".toList ∨ literal = "-Infinity".toList

theorem digit_ne {c : Char} (h : c.isDigit = true) :
    c ≠ '-' ∧ c ≠ '+' ∧ c ≠ '.' ∧ c ≠ 'e' ∧ c ≠ 'E' := by
  refine ⟨?_, ?_, ?_, ?_, ?_⟩
  all_goals
    intro hc
    rw [hc] at h
    exact absurd h (by decide)

theorem readDigits_append {ds rest : List Char} (hds : Digits ds)
    (hrest : StopsAt Char.isDigit rest) : readDigits (ds ++ rest) = some (ds, rest) := by
  obtain ⟨htake, hdrop⟩ := takeWhile_run hds.2 hrest
  rw [readDigits, htake, hdrop, if_neg hds.1]

theorem readNat_append {int rest : List Char} (hint : Natural int)
    (hrest : StopsAt Char.isDigit rest) : readNat (int ++ rest) = some (int, rest) := by
  obtain ⟨hds, hzero⟩ := hint
  cases int with
  | nil => exact absurd rfl hds.1
  | cons c int =>
    rw [List.cons_append, readNat]
    by_cases hc : c = '0'
    · rw [if_pos hc]
      obtain rfl : int = [] := by
        have := hzero (by rw [hc]; rfl)
        exact (List.cons.inj this).2
      rw [hc]
      rfl
    · rw [if_neg hc]
      exact readDigits_append hds hrest

theorem readInt_append {sign int rest : List Char} (hsign : Sign sign) (hint : Natural int)
    (hrest : StopsAt Char.isDigit rest) :
    readInt (sign ++ int ++ rest) = some (sign ++ int, rest) := by
  have hread := readNat_append hint hrest
  rcases hsign with rfl | rfl
  · rw [List.nil_append]
    cases int with
    | nil => exact absurd rfl hint.1.1
    | cons c int =>
      have hc := (digit_ne (hint.1.2 c List.mem_cons_self)).1
      rw [List.cons_append] at hread ⊢
      rw [readInt, if_neg hc]
      exact hread
  · show readInt ('-' :: (int ++ rest)) = _
    rw [readInt, if_pos rfl, hread]
    rfl

theorem readFrac_append {frac rest : List Char} (hfrac : Fraction frac)
    (hdigit : StopsAt Char.isDigit rest) (hdot : StopsAt (· == '.') rest) :
    readFrac (frac ++ rest) = (frac, rest) := by
  rcases hfrac with rfl | ⟨ds, hds, rfl⟩
  · cases rest with
    | nil => rfl
    | cons c rest =>
      have hc : c ≠ '.' := by simpa using stopsAt_cons.mp hdot
      rw [List.nil_append, readFrac, if_neg hc]
  · rw [List.cons_append, readFrac, if_pos rfl, readDigits_append hds hdigit]

theorem readSign_append {sign ds rest : List Char}
    (hsign : sign = [] ∨ sign = ['+'] ∨ sign = ['-']) (hds : Digits ds) :
    readSign (sign ++ (ds ++ rest)) = (sign, ds ++ rest) := by
  rcases hsign with rfl | rfl | rfl
  · cases ds with
    | nil => exact absurd rfl hds.1
    | cons c ds =>
      obtain ⟨hminus, hplus, -⟩ := digit_ne (hds.2 c List.mem_cons_self)
      rw [List.nil_append, List.cons_append, readSign, if_neg (by simp [hminus, hplus])]
  · rfl
  · rfl

theorem readExp_append {exp rest : List Char} (hexp : Exponent exp)
    (hdigit : StopsAt Char.isDigit rest) (he : StopsAt (fun c => c == 'e' || c == 'E') rest) :
    readExp (exp ++ rest) = (exp, rest) := by
  rcases hexp with rfl | ⟨e, sign, ds, hletter, hsign, hds, rfl⟩
  · cases rest with
    | nil => rfl
    | cons c rest =>
      have hc : ¬(c = 'e' ∨ c = 'E') := by simpa using stopsAt_cons.mp he
      rw [List.nil_append, readExp, if_neg hc]
  · have hread : readSign (sign ++ (ds ++ rest)) = (sign, ds ++ rest) := readSign_append hsign hds
    rw [List.cons_append, List.cons_append, List.append_assoc, readExp, if_pos hletter, hread,
      readDigits_append hds hdigit]
    rfl

/-- What stands in front of an exponent, or of what follows a number, ends the fraction. -/
theorem exponent_stops {exp rest : List Char} (hexp : Exponent exp) (hrest : Follow rest) :
    StopsAt Char.isDigit (exp ++ rest) ∧ StopsAt (· == '.') (exp ++ rest) := by
  rcases hexp with rfl | ⟨e, sign, ds, hletter, -, -, rfl⟩
  · exact ⟨hrest.noDigit, hrest.stopsAt fun c hc => by simp [continues, beq_iff_eq.mp hc]⟩
  · rw [List.cons_append, List.cons_append, stopsAt_cons, stopsAt_cons]
    rcases hletter with rfl | rfl
    · exact ⟨by decide, by decide⟩
    · exact ⟨by decide, by decide⟩

theorem fraction_stops {frac rest : List Char} (hfrac : Fraction frac)
    (hrest : StopsAt Char.isDigit rest) : StopsAt Char.isDigit (frac ++ rest) := by
  rcases hfrac with rfl | ⟨ds, -, rfl⟩
  · exact hrest
  · rw [List.cons_append, stopsAt_cons]
    decide

/-- The parts of a number in front of what may follow it. -/
theorem number_parts {sign int frac exp rest : List Char} (hsign : Sign sign)
    (hint : Natural int) (hfrac : Fraction frac) (hexp : Exponent exp) (hrest : Follow rest) :
    readInt (sign ++ int ++ frac ++ exp ++ rest) = some (sign ++ int, frac ++ (exp ++ rest)) ∧
      readFrac (frac ++ (exp ++ rest)) = (frac, exp ++ rest) ∧
      readExp (exp ++ rest) = (exp, rest) := by
  obtain ⟨hdigit, hdot⟩ := exponent_stops hexp hrest
  have hletter : StopsAt (fun c => c == 'e' || c == 'E') rest := by
    refine hrest.stopsAt fun c hc => ?_
    rcases Bool.or_eq_true_iff.mp hc with h | h
    · simp [continues, beq_iff_eq.mp h]
    · simp [continues, beq_iff_eq.mp h]
  have hassoc : sign ++ int ++ frac ++ exp ++ rest = sign ++ int ++ (frac ++ (exp ++ rest)) := by
    simp
  rw [hassoc]
  exact ⟨readInt_append hsign hint (fraction_stops hfrac hdigit), readFrac_append hfrac hdigit hdot,
    readExp_append hexp hrest.noDigit hletter⟩

/-- A float literal reads as itself. -/
theorem readNumber_float {sign int frac exp rest : List Char} (hsign : Sign sign)
    (hint : Natural int) (hfrac : Fraction frac) (hexp : Exponent exp)
    (hsome : frac ≠ [] ∨ exp ≠ []) (hrest : Follow rest) :
    readNumber (sign ++ int ++ frac ++ exp ++ rest) =
      some (.float (String.ofList (sign ++ int ++ frac ++ exp)), rest) := by
  obtain ⟨hreadInt, hreadFrac, hreadExp⟩ := number_parts hsign hint hfrac hexp hrest
  have hboth : ¬(frac = [] ∧ exp = []) := by
    intro hnone
    rcases hsome with hs | hs
    · exact hs hnone.1
    · exact hs hnone.2
  rw [readNumber, hreadInt]
  dsimp only
  rw [hreadFrac]
  dsimp only
  rw [hreadExp]
  dsimp only
  rw [if_neg hboth]

/-! ## Integers -/

theorem toDigits_digits (n : Nat) : Digits (Nat.toDigits 10 n) :=
  ⟨Nat.toDigits_ne_nil, fun _ hc => Nat.isDigit_of_mem_toDigits (by decide) (by decide) hc⟩

/-- Only zero is written with a leading zero. -/
theorem toDigits_natural (n : Nat) : Natural (Nat.toDigits 10 n) := by
  refine ⟨toDigits_digits n, ?_⟩
  induction n using Nat.strongRecOn with
  | _ n ih =>
    by_cases hn : n < 10
    · rw [Nat.toDigits_of_lt_base hn]
      intro hzero
      rw [Option.some.inj hzero]
    · intro hzero
      rw [Nat.toDigits_of_base_le (by decide) (by omega)] at hzero
      have hhead : (Nat.toDigits 10 (n / 10)).head? = some '0' := by
        rw [List.head?_append_of_ne_nil _ Nat.toDigits_ne_nil] at hzero
        exact hzero
      -- the digits in front of the last one are those of zero, and there are none
      have hone := ih (n / 10) (by omega) hhead
      have hvalue := congrArg (Nat.ofDigitChars 10 · 0) hone
      simp only [Nat.ofDigitChars_ten_toDigits] at hvalue
      have : Nat.ofDigitChars 10 ['0'] 0 = 0 := by decide
      omega

theorem intValue_dumpsInt (n : Int) : intValue (dumpsInt n) = n := by
  unfold dumpsInt
  split
  next hneg =>
    rw [intValue, if_pos rfl, Nat.ofDigitChars_ten_toDigits]
    omega
  next hpos =>
    have hds := toDigits_digits n.natAbs
    cases hd : Nat.toDigits 10 n.natAbs with
    | nil => exact absurd hd hds.1
    | cons c ds =>
      rw [hd] at hds
      rw [intValue, if_neg (digit_ne (hds.2 c List.mem_cons_self)).1, ← hd,
        Nat.ofDigitChars_ten_toDigits]
      omega

/-- An integer that `int` converts. -/
def ShortInt (n : Int) : Prop := (Nat.toDigits 10 n.natAbs).length ≤ maxStrDigits

theorem dumpsInt_parts (n : Int) : ∃ sign, Sign sign ∧
    dumpsInt n = sign ++ Nat.toDigits 10 n.natAbs := by
  unfold dumpsInt
  split
  next => exact ⟨['-'], Or.inr rfl, rfl⟩
  next => exact ⟨[], Or.inl rfl, rfl⟩

/-- The sign is no digit. -/
theorem countP_digits {sign int : List Char} (hsign : Sign sign) (hint : Digits int) :
    (sign ++ int).countP Char.isDigit = int.length := by
  rw [List.countP_append, List.countP_eq_length.mpr hint.2]
  rcases hsign with rfl | rfl
  · simp
  · have hminus : List.countP Char.isDigit ['-'] = 0 := by decide
    omega

theorem readNumber_int {n : Int} (hn : ShortInt n) {rest : List Char} (hrest : Follow rest) :
    readNumber (dumpsInt n ++ rest) = some (.int n, rest) := by
  obtain ⟨sign, hsign, hparts⟩ := dumpsInt_parts n
  have hnat := toDigits_natural n.natAbs
  obtain ⟨hreadInt, hreadFrac, hreadExp⟩ :=
    number_parts hsign hnat (Or.inl rfl : Fraction []) (Or.inl rfl : Exponent []) hrest
  rw [List.append_nil, List.append_nil, ← hparts] at hreadInt
  have hshort : ¬ maxStrDigits < (dumpsInt n).countP Char.isDigit := by
    rw [hparts, countP_digits hsign hnat.1]
    exact Nat.not_lt.mpr hn
  rw [readNumber, hreadInt]
  dsimp only
  rw [hreadFrac]
  dsimp only
  rw [hreadExp]
  dsimp only
  rw [if_pos ⟨rfl, rfl⟩, if_neg hshort, intValue_dumpsInt]

end SupertonicServer.Wire
