import SupertonicServer.Coalescer.Conserve

/-!
# Decimal protection over a stream

The scan protects a mark with a digit on both sides *inside the current buffer*. Over a
stream `T` split into pushes the two neighbours of a mark are characters of `T`, and the
buffer may miss one of them: the right one when a push ends at the mark, the left one when
a forced cut fell just in front of it. `streamCuts` lists every cut of a run of pushes with
the text on either side of the buffer; `decimalSafe_iff` says that these two edges are the
only places where a number is cut at its inner mark.
-/

namespace SupertonicServer.Coalescer

open Lib (cutAll cutPiece cutRest cutStates cutStates_spec cutStates_pieces)

/-- One cut of a run of pushes: the text released before it, the buffer that was cut, the
cut index, and the text of the pushes still to come. -/
structure StreamCut where
  released : List Char
  buf : List Char
  cut : Nat
  toCome : List Char
deriving DecidableEq

/-- The cuts made by the pushes of `texts`, in order. -/
def streamCuts (c : TextCoalescer) (released : List Char) : List (List Char) → List StreamCut
  | [] => []
  | text :: texts =>
    let buf := c.buf ++ text
    (cutStates (findBoundary c.limits) isspace buf.length released buf).map
        (fun s => ⟨s.1, s.2.1, s.2.2, texts.flatten⟩)
      ++ streamCuts (c.push text).2 (released ++ (c.push text).1.flatten) texts

/-- The chunk a cut releases. -/
def StreamCut.chunk (s : StreamCut) : Chunk := cutPiece isspace s.buf s.cut

/-- The listed cuts are exactly those that made the chunks returned by the pushes. -/
theorem streamCuts_chunks (c : TextCoalescer) (released : List Char)
    (texts : List (List Char)) :
    (streamCuts c released texts).map StreamCut.chunk = (c.calls (texts.map .push)).1 := by
  induction texts generalizing c released with
  | nil => rfl
  | cons text texts ih =>
    simp only [streamCuts, List.map_append, List.map_map, List.map_cons, TextCoalescer.calls]
    rw [ih]
    exact congrArg (· ++ _) (cutStates_pieces (c.buf ++ text).length released (c.buf ++ text))

/-- Each listed cut was made by `findBoundary`, and its three texts make up the stream. -/
theorem streamCuts_spec (c : TextCoalescer) (released : List Char)
    (texts : List (List Char)) :
    ∀ s ∈ streamCuts c released texts,
      findBoundary c.limits s.buf = some s.cut ∧
      s.released ++ s.buf ++ s.toCome = released ++ c.buf ++ texts.flatten := by
  induction texts generalizing c released with
  | nil => intro s hs; exact absurd hs List.not_mem_nil
  | cons text texts ih =>
    intro s hs
    rcases List.mem_append.mp hs with hs | hs
    · obtain ⟨q, hq, rfl⟩ := List.mem_map.mp hs
      obtain ⟨hfind, htext⟩ := cutStates_spec _ _ _ q hq
      refine ⟨hfind, ?_⟩
      dsimp only
      rw [htext]
      simp
    · obtain ⟨hfind, htext⟩ := ih _ _ s hs
      refine ⟨hfind, ?_⟩
      rw [htext, List.append_assoc released, push_flatten]
      simp

/-- A digit immediately on both sides of position `p` of a text. -/
def digitsAround (text : List Char) (p : Nat) : Prop :=
  0 < p ∧ (text[p - 1]?).any isdigit = true ∧ (text[p + 1]?).any isdigit = true

instance (text : List Char) (p : Nat) : Decidable (digitsAround text p) := by
  unfold digitsAround; infer_instance

/-- No chunk released by the pushes of `texts` was cut at a mark with a digit on both sides
in the whole text. -/
def DecimalSafe (lim : Limits) (texts : List (List Char)) : Prop :=
  ∀ s ∈ streamCuts { limits := lim } [] texts, ∀ i, scan lim s.buf = some i →
    ¬ digitsAround texts.flatten (s.released.length + i)

/-- The mark at index `i` of the buffer has a digit on both sides once the text released
before the buffer and the text still to come are taken into account. -/
def StreamCut.digitsBeside (s : StreamCut) (i : Nat) : Prop :=
  ((s.released ++ s.buf.take i).getLast?).any isdigit = true ∧
  ((s.buf.drop (i + 1) ++ s.toCome).head?).any isdigit = true

/-- The two edges of a buffer about to be cut.

`first`: the buffer starts with a sentence-final mark (or a clause-final one under
`soft_min_chars = 0`), the text released before it ends in a digit, and a digit follows.

`last`: the buffer ends in its first qualifying mark (under the decimal, soft-minimum and
digit-run tests), a digit stands before it, and the next push brings a digit. -/
structure StreamCut.EdgesClear (lim : Limits) (s : StreamCut) : Prop where
  first : ∀ ch, s.buf.head? = some ch →
    ch ∈ sentenceFinal ∨ (ch ∈ clauseFinal ∧ lim.softMinChars = 0) → ¬ s.digitsBeside 0
  last : ∀ i, i + 1 = s.buf.length → qualifies lim s.buf i = true →
    (∀ j < i, qualifies lim s.buf j = false) → ¬ s.digitsBeside i

/-! ## Neighbours in the buffer and in the stream -/

/-- The neighbours of the element behind `xs` are the last of `xs` and the first of `ys`. -/
theorem digitsAround_append (xs : List Char) (x : Char) (ys : List Char) :
    digitsAround (xs ++ x :: ys) xs.length ↔
      (xs.getLast?).any isdigit = true ∧ (ys.head?).any isdigit = true := by
  have hright : (xs ++ x :: ys)[xs.length + 1]? = ys.head? := by
    rw [List.getElem?_append_right (by omega), List.head?_eq_getElem?]
    rw [show xs.length + 1 - xs.length = 0 + 1 by omega, List.getElem?_cons_succ]
  unfold digitsAround
  rw [hright, List.getLast?_eq_getElem?]
  rcases Nat.eq_zero_or_pos xs.length with h0 | hpos
  · obtain rfl : xs = [] := List.eq_nil_of_length_eq_zero h0
    simp
  · rw [List.getElem?_append_left (by omega)]
    exact ⟨fun h => h.2, fun h => ⟨hpos, h⟩⟩

/-- For a cut of the stream the two notions of neighbour agree. -/
theorem digitsAround_iff_beside {s : StreamCut} {text : List Char} {i : Nat}
    (htext : s.released ++ s.buf ++ s.toCome = text) (hi : i < s.buf.length) :
    digitsAround text (s.released.length + i) ↔ s.digitsBeside i := by
  have hbuf : s.buf.take i ++ s.buf[i] :: s.buf.drop (i + 1) = s.buf := by
    rw [← List.drop_eq_getElem_cons hi, List.take_append_drop]
  have hsplit : text = (s.released ++ s.buf.take i) ++
      s.buf[i] :: (s.buf.drop (i + 1) ++ s.toCome) := by
    rw [← List.cons_append, List.append_assoc, ← List.append_assoc (s.buf.take i), hbuf,
      ← List.append_assoc, htext]
  have hlen : (s.released ++ s.buf.take i).length = s.released.length + i := by
    rw [List.length_append, List.length_take]
    omega
  unfold StreamCut.digitsBeside
  rw [hsplit, ← hlen, digitsAround_append]

/-- Away from both edges the neighbours are in the buffer, and the scan looked at them. -/
theorem not_digitsBeside_of_inner {lim : Limits} {s : StreamCut} {i : Nat}
    (hq : qualifies lim s.buf i = true) (h0 : 0 < i) (hlast : i + 1 < s.buf.length) :
    ¬ s.digitsBeside i := by
  obtain ⟨ch, -, -, hdec⟩ := qualifies_mark hq
  intro hbeside
  obtain ⟨hleft, hright⟩ := hbeside
  -- both neighbours in the stream are characters of the buffer
  have hl : (s.released ++ s.buf.take i).getLast? = s.buf[i - 1]? := by
    have hlen : (s.buf.take i).length = i := by
      rw [List.length_take]
      omega
    rw [List.getLast?_append, List.getLast?_eq_getElem?, hlen, List.getElem?_take_of_lt (by omega)]
    rw [List.getElem?_eq_getElem (by omega)]
    rfl
  have hr : (s.buf.drop (i + 1) ++ s.toCome).head? = s.buf[i + 1]? := by
    rw [List.head?_append, List.head?_drop, List.getElem?_eq_getElem hlast]
    rfl
  rw [hl] at hleft
  rw [hr] at hright
  -- with a digit on either side the scan would have protected the mark
  unfold decimalProtected at hdec
  rw [hleft, hright] at hdec
  simp only [Bool.and_true, Bool.and_eq_false_iff, decide_eq_false_iff_not] at hdec
  omega

/-! ## The first character of a buffer -/

/-- A lone mark is no digit run. -/
theorem endsInDigitRun_mark {ch : Char} (h : ch ∈ boundaryMarks) :
    endsInDigitRun [ch] = false := by
  have hall : boundaryMarks.all (fun c => !endsInDigitRun [c]) = true := by decide
  simpa using List.all_eq_true.mp hall ch h

/-- At index `0` the decimal and digit-run tests are vacuous: a sentence-final mark always
qualifies, a clause-final one only without a soft minimum. -/
theorem qualifies_zero_iff {lim : Limits} {buf : List Char} :
    qualifies lim buf 0 = true ↔ ∃ ch, buf.head? = some ch ∧
      (ch ∈ sentenceFinal ∨ (ch ∈ clauseFinal ∧ lim.softMinChars = 0)) := by
  cases buf with
  | nil => simp [qualifies]
  | cons ch rest =>
    have hmark : ch ∈ boundaryMarks ↔ ch ∈ sentenceFinal ∨ ch ∈ clauseFinal :=
      List.mem_append
    have hdec : decimalProtected (ch :: rest) 0 = false := by simp [decimalProtected]
    have hrun : ch ∈ boundaryMarks → endsInDigitRun ((ch :: rest).take (0 + 1)) = false :=
      fun h => endsInDigitRun_mark h
    unfold qualifies
    simp only [List.getElem?_cons_zero, List.head?_cons, Option.some.injEq, exists_eq_left',
      hdec, Bool.false_eq_true, if_false]
    by_cases hb : ch ∈ boundaryMarks
    · rw [if_neg (by simpa using hb), hrun hb]
      by_cases hs : ch ∈ sentenceFinal
      · simp [hs]
      · have hc : ch ∈ clauseFinal := (hmark.mp hb).resolve_left hs
        simp [hs, hc]
    · rw [if_pos (by simpa using hb)]
      have hns : ch ∉ sentenceFinal := fun h => hb (hmark.mpr (Or.inl h))
      have hnc : ch ∉ clauseFinal := fun h => hb (hmark.mpr (Or.inr h))
      simp [hns, hnc]

/-- **Where a number can be cut**: the pushes of a text respect its numbers exactly when
both edges of every buffer they cut are clear. -/
theorem decimalSafe_iff (lim : Limits) (texts : List (List Char)) :
    DecimalSafe lim texts ↔
      ∀ s ∈ streamCuts { limits := lim } [] texts, s.EdgesClear lim := by
  have htext : ∀ s ∈ streamCuts { limits := lim } [] texts,
      s.released ++ s.buf ++ s.toCome = texts.flatten := by
    intro s hs
    rw [(streamCuts_spec _ _ _ s hs).2]
    simp
  constructor
  · intro hsafe s hs
    have hno : ∀ i, scan lim s.buf = some i → ¬ s.digitsBeside i := by
      intro i hi hbeside
      have hlt := (scan_eq_some hi).1
      exact hsafe s hs i hi ((digitsAround_iff_beside (htext s hs) hlt).mpr hbeside)
    constructor
    · intro ch hch hkind
      have hq : qualifies lim s.buf 0 = true := qualifies_zero_iff.mpr ⟨ch, hch, hkind⟩
      have hpos : 0 < s.buf.length := by
        cases hb : s.buf with
        | nil => rw [hb] at hch; exact absurd hch (by simp)
        | cons x xs => simp
      exact hno 0 (scan_eq_some_iff.mpr ⟨hq, hpos, fun j hj => absurd hj (Nat.not_lt_zero j)⟩)
    · intro i hi hq hfirst
      exact hno i (scan_eq_some_iff.mpr ⟨hq, by omega, hfirst⟩)
  · intro hclear s hs i hi
    obtain ⟨hq, hlt, hfirst⟩ := scan_eq_some_iff.mp hi
    rw [digitsAround_iff_beside (htext s hs) hlt]
    -- the mark is the first character of the buffer, an inner one, or the last
    rcases Nat.eq_zero_or_pos i with rfl | hpos
    · obtain ⟨ch, hch, hkind⟩ := qualifies_zero_iff.mp hq
      exact (hclear s hs).first ch hch hkind
    · rcases Nat.lt_or_ge (i + 1) s.buf.length with hin | hend
      · exact not_digitsBeside_of_inner hq hpos hin
      · exact (hclear s hs).last i (by omega) hq hfirst

/-- The stream `It is 9.` followed by `24 percent.` is cut inside `9.24`: the mark is the
last character of the first push, and `9.` is half digits, below the digit-run threshold. -/
theorem decimal_cut_at_push_end :
    ¬ DecimalSafe Limits.default ["It is 9.".toList, "24 percent.".toList] := by
  intro h
  have hcut := h ⟨[], "It is 9.".toList, 8, "24 percent.".toList⟩ (by decide) 7 (by decide)
  exact hcut (by decide)

end SupertonicServer.Coalescer
