import Mathlib.Data.List.Basic

/-!
# Python's character classes

A Python `str` is modelled as the list of its characters. `isspace` and `isdigit` are
`str.isspace` and `str.isdigit` on one character, as tables of code-point ranges for the
Unicode version of the interpreter the package asks for (`requires-python >= 3.12`): white
space is every character with bidirectional class `WS`, `B` or `S` or of category `Zs`, a
digit every character of numeric type `Decimal` or `Digit`. So `isdigit` holds of the
Devanagari digits and of superscripts, not only of `0` to `9`.

`rfind` is `str.rfind` for a one-character needle, with Python's `-1` for "not found".
-/

namespace SupertonicServer.Coalescer

/-- A code point lies in one of the listed closed ranges. -/
def inRanges (ranges : List (Nat × Nat)) (c : Char) : Bool :=
  ranges.any fun r => r.1 ≤ c.toNat && c.toNat ≤ r.2

/-- The characters `str.isspace` accepts. -/
def spaceRanges : List (Nat × Nat) :=
  [(0x0009, 0x000D), (0x001C, 0x0020), (0x0085, 0x0085), (0x00A0, 0x00A0), (0x1680, 0x1680),
   (0x2000, 0x200A), (0x2028, 0x2029), (0x202F, 0x202F), (0x205F, 0x205F), (0x3000, 0x3000)]

/-- The characters `str.isdigit` accepts. -/
def digitRanges : List (Nat × Nat) :=
  [(0x0030, 0x0039), (0x00B2, 0x00B3), (0x00B9, 0x00B9), (0x0660, 0x0669), (0x06F0, 0x06F9),
   (0x07C0, 0x07C9), (0x0966, 0x096F), (0x09E6, 0x09EF), (0x0A66, 0x0A6F), (0x0AE6, 0x0AEF),
   (0x0B66, 0x0B6F), (0x0BE6, 0x0BEF), (0x0C66, 0x0C6F), (0x0CE6, 0x0CEF), (0x0D66, 0x0D6F),
   (0x0DE6, 0x0DEF), (0x0E50, 0x0E59), (0x0ED0, 0x0ED9), (0x0F20, 0x0F29), (0x1040, 0x1049),
   (0x1090, 0x1099), (0x1369, 0x1371), (0x17E0, 0x17E9), (0x1810, 0x1819), (0x1946, 0x194F),
   (0x19D0, 0x19DA), (0x1A80, 0x1A89), (0x1A90, 0x1A99), (0x1B50, 0x1B59), (0x1BB0, 0x1BB9),
   (0x1C40, 0x1C49), (0x1C50, 0x1C59), (0x2070, 0x2070), (0x2074, 0x2079), (0x2080, 0x2089),
   (0x2460, 0x2468), (0x2474, 0x247C), (0x2488, 0x2490), (0x24EA, 0x24EA), (0x24F5, 0x24FD),
   (0x24FF, 0x24FF), (0x2776, 0x277E), (0x2780, 0x2788), (0x278A, 0x2792), (0xA620, 0xA629),
   (0xA8D0, 0xA8D9), (0xA900, 0xA909), (0xA9D0, 0xA9D9), (0xA9F0, 0xA9F9), (0xAA50, 0xAA59),
   (0xABF0, 0xABF9), (0xFF10, 0xFF19), (0x104A0, 0x104A9), (0x10A40, 0x10A43), (0x10D30, 0x10D39),
   (0x10E60, 0x10E68), (0x11052, 0x1105A), (0x11066, 0x1106F), (0x110F0, 0x110F9), (0x11136, 0x1113F),
   (0x111D0, 0x111D9), (0x112F0, 0x112F9), (0x11450, 0x11459), (0x114D0, 0x114D9), (0x11650, 0x11659),
   (0x116C0, 0x116C9), (0x11730, 0x11739), (0x118E0, 0x118E9), (0x11950, 0x11959), (0x11C50, 0x11C59),
   (0x11D50, 0x11D59), (0x11DA0, 0x11DA9), (0x11F50, 0x11F59), (0x16A60, 0x16A69), (0x16AC0, 0x16AC9),
   (0x16B50, 0x16B59), (0x1D7CE, 0x1D7FF), (0x1E140, 0x1E149), (0x1E2F0, 0x1E2F9), (0x1E4F0, 0x1E4F9),
   (0x1E950, 0x1E959), (0x1F100, 0x1F10A), (0x1FBF0, 0x1FBF9)]

/-- `c.isspace()`. -/
def isspace (c : Char) : Bool := inRanges spaceRanges c

/-- `c.isdigit()`. -/
def isdigit (c : Char) : Bool := inRanges digitRanges c

/-- `s.rfind(c)`: the last index of `c`, or `-1`. -/
def rfind (s : List Char) (c : Char) : Int :=
  match (List.range s.length).reverse.find? fun i => s[i]? == some c with
  | some i => i
  | none => -1

/-- A found index is an index of `s`. -/
theorem rfind_lt_length (s : List Char) (c : Char) : rfind s c < s.length := by
  unfold rfind
  split
  next i hi =>
    have hmem := List.mem_of_find?_eq_some hi
    rw [List.mem_reverse, List.mem_range] at hmem
    omega
  next => omega

/-- A search from the right finds the last index that passes. -/
theorem find?_reverse_range {p : Nat → Bool} {i : Nat} :
    ∀ n, (List.range n).reverse.find? p = some i → ∀ j < n, i < j → p j = false
  | 0, _, j, hj, _ => absurd hj (Nat.not_lt_zero j)
  | n + 1, h, j, hj, hij => by
    rw [List.range_succ, List.reverse_append, List.reverse_singleton, List.singleton_append,
      List.find?_cons] at h
    split at h
    next hn =>
      -- the last index passes, and nothing lies behind it
      obtain rfl : n = i := Option.some.inj h
      omega
    next hn =>
      rcases Nat.lt_or_ge j n with hlt | hge
      · exact find?_reverse_range n h j hlt hij
      · obtain rfl : j = n := by omega
        exact hn

/-- `rfind` finds nothing, or the last occurrence. -/
theorem rfind_spec (s : List Char) (c : Char) :
    (rfind s c = -1 ∧ c ∉ s) ∨
    ∃ i : Nat, rfind s c = i ∧ s[i]? = some c ∧ ∀ j, i < j → s[j]? ≠ some c := by
  unfold rfind
  split
  next i hi =>
    apply Or.inr
    refine ⟨i, rfl, by simpa using List.find?_some hi, ?_⟩
    intro j hij
    by_cases hj : j < s.length
    · simpa using find?_reverse_range s.length hi j hj hij
    · rw [List.getElem?_eq_none (by omega)]
      exact (Option.some_ne_none c).symm
  next h =>
    apply Or.inl
    refine ⟨rfl, ?_⟩
    intro hmem
    obtain ⟨i, hi⟩ := List.mem_iff_getElem?.mp hmem
    obtain ⟨hlt, -⟩ := List.getElem?_eq_some_iff.mp hi
    have hno := List.find?_eq_none.mp h i (by simpa using hlt)
    exact hno (by simpa using hi)

/-- A needle is found behind the first character exactly when it occurs there. -/
theorem rfind_pos_iff (s : List Char) (c : Char) : 0 < rfind s c ↔ c ∈ s.tail := by
  have htail : c ∈ s.tail ↔ ∃ j, s[j + 1]? = some c := by
    rw [List.mem_iff_getElem?]
    simp only [List.getElem?_tail]
  rw [htail]
  rcases rfind_spec s c with ⟨hnone, hmem⟩ | ⟨i, hi, hat, hlast⟩
  · constructor
    · intro hpos
      omega
    · intro hex
      obtain ⟨j, hj⟩ := hex
      exact absurd (List.mem_of_getElem? hj) hmem
  · rw [hi]
    constructor
    · intro hpos
      exact ⟨i - 1, by rw [show i - 1 + 1 = i by omega]; exact hat⟩
    · intro hex
      obtain ⟨j, hj⟩ := hex
      rcases Nat.lt_or_ge i (j + 1) with hlt | hge
      · exact absurd hj (hlast _ hlt)
      · omega

end SupertonicServer.Coalescer
