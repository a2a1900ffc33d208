import SupertonicServer.Coalescer.Decimal

/-!
# Where a chunk may end

The core of a chunk is the text up to its cut; white space standing behind the cut in the
buffer is carried over with it. A cut is made at the first mark that qualifies, and only
where no mark does is it forced, so the hard cap bounds the forced cuts alone
(`chunk_length_le_iff`). A forced cut looks for a blank and for no other white space, which
is the one way a chunk can end inside a word it need not slice (`boundary_policy_iff`).
-/

namespace SupertonicServer.Coalescer

open Lib (cutAll cutLoop cutPiece cutRest cutStates CutInRange cutStates_spec cutStates_suffix)

/-- A chunk up to its cut. -/
def StreamCut.core (s : StreamCut) : List Char := s.buf.take s.cut

/-- The white space carried over after the cut. -/
def StreamCut.carried (s : StreamCut) : List Char := (s.buf.drop s.cut).takeWhile isspace

theorem StreamCut.chunk_eq (s : StreamCut) : s.chunk = s.core ++ s.carried := rfl

/-! ## The two kinds of cut -/

/-- A cut stands behind the first qualifying mark, or it is forced. -/
theorem findBoundary_cases {lim : Limits} {buf : List Char} {cut : Nat}
    (h : findBoundary lim buf = some cut) :
    (∃ i, scan lim buf = some i ∧ cut = i + 1) ∨
    (scan lim buf = none ∧ lim.hardMaxChars < buf.length ∧ cut = forcedCut lim buf) := by
  unfold findBoundary at h
  split at h
  next i hi => exact Or.inl ⟨i, hi, (Option.some.inj h).symm⟩
  next hnone =>
    split at h
    next hlong => exact Or.inr ⟨hnone, hlong, (Option.some.inj h).symm⟩
    next => exact absurd h (by simp)

theorem findBoundary_none_iff {lim : Limits} {buf : List Char} :
    findBoundary lim buf = none ↔ scan lim buf = none ∧ buf.length ≤ lim.hardMaxChars := by
  unfold findBoundary
  split
  next i hi => simp [hi]
  next hnone =>
    split
    next hlong => simp [hlong]
    next hshort => simp [hnone, Nat.le_of_not_lt hshort]

/-- What kind of mark qualifies, and where. -/
theorem qualifies_kind {lim : Limits} {buf : List Char} {i : Nat}
    (h : qualifies lim buf i = true) :
    ∃ ch, buf[i]? = some ch ∧
      (ch ∈ sentenceFinal ∨ (ch ∈ clauseFinal ∧ lim.softMinChars < i + 1)) := by
  obtain ⟨ch, hch, hmark, hdec⟩ := qualifies_mark h
  refine ⟨ch, hch, ?_⟩
  unfold qualifies at h
  rw [hch] at h
  simp only [hdec, Bool.false_eq_true, if_false] at h
  rcases List.mem_append.mp hmark with hs | hc
  · exact Or.inl hs
  · by_cases hs : ch ∈ sentenceFinal
    · exact Or.inl hs
    · -- a clause-final mark at or below the soft minimum does not qualify
      apply Or.inr
      refine ⟨hc, ?_⟩
      rcases Nat.lt_or_ge lim.softMinChars (i + 1) with hlt | hge
      · exact hlt
      · simp [boundaryMarks, hs, hc, hge] at h

/-- The last character of a prefix. -/
theorem getLast?_take {buf : List Char} {i : Nat} {ch : Char} (h : buf[i]? = some ch) :
    (buf.take (i + 1)).getLast? = some ch := by
  have hlt : i + 1 ≤ buf.length := (List.getElem?_eq_some_iff.mp h).1
  rw [List.getLast?_eq_getElem?, List.length_take, Nat.min_eq_left hlt, Nat.add_sub_cancel,
    List.getElem?_take_of_lt (Nat.lt_succ_self i)]
  exact h

/-- A forced cut behind a blank: the blank is the last of the window. -/
theorem forcedCut_of_blank {lim : Limits} {buf : List Char}
    (h : ' ' ∈ (buf.take lim.hardMaxChars).tail) :
    forcedCut lim buf ≤ lim.hardMaxChars ∧
    (buf.take (forcedCut lim buf)).getLast? = some ' ' := by
  refine ⟨(forcedCut_bounds lim buf).2, ?_⟩
  have hpos := (rfind_pos_iff (buf.take lim.hardMaxChars) ' ').mpr h
  rcases rfind_spec (buf.take lim.hardMaxChars) ' ' with ⟨hnone, -⟩ | ⟨i, hi, hat, -⟩
  · omega
  · unfold forcedCut
    dsimp only
    rw [if_pos hpos, hi, Int.toNat_natCast]
    apply getLast?_take
    rw [List.getElem?_take] at hat
    split at hat
    next => exact hat
    next => exact absurd hat (by simp)

/-- Without a blank behind its first character the window is cut at the cap. -/
theorem forcedCut_of_no_blank {lim : Limits} {buf : List Char}
    (h : ' ' ∉ (buf.take lim.hardMaxChars).tail) : forcedCut lim buf = lim.hardMaxChars := by
  have hpos := mt (rfind_pos_iff (buf.take lim.hardMaxChars) ' ').mp h
  unfold forcedCut
  dsimp only
  rw [if_neg hpos]

/-! ## The hard cap -/

/-- The first qualifying mark of the buffer lies behind its first `hardMaxChars`
characters. -/
def MarkPastCap (lim : Limits) (buf : List Char) : Prop :=
  ∃ i, lim.hardMaxChars ≤ i ∧ scan lim buf = some i

/-- A cut falls beyond the cap exactly when it is made at a mark that lies there. -/
theorem cut_le_iff {lim : Limits} {buf : List Char} {cut : Nat}
    (h : findBoundary lim buf = some cut) :
    cut ≤ lim.hardMaxChars ↔ ¬ MarkPastCap lim buf := by
  rcases findBoundary_cases h with ⟨i, hi, rfl⟩ | ⟨hnone, -, rfl⟩
  · constructor
    · intro hle hpast
      obtain ⟨j, hj, hscan⟩ := hpast
      obtain rfl : i = j := Option.some.inj (hi.symm.trans hscan)
      omega
    · intro hno
      rcases Nat.lt_or_ge i lim.hardMaxChars with hlt | hge
      · exact hlt
      · exact absurd ⟨i, hge, hi⟩ hno
  · constructor
    · intro _ hpast
      obtain ⟨j, -, hscan⟩ := hpast
      rw [hnone] at hscan
      exact absurd hscan (by simp)
    · intro _
      exact (forcedCut_bounds lim buf).2

/-- The core of a chunk is as long as its cut says. -/
theorem core_length {c : TextCoalescer} {released : List Char} {texts : List (List Char)}
    {s : StreamCut} (hs : s ∈ streamCuts c released texts) : s.core.length = s.cut := by
  obtain ⟨hfind, -⟩ := streamCuts_spec c released texts s hs
  have := findBoundary_inRange c.limits s.buf s.cut hfind
  rw [StreamCut.core, List.length_take]
  omega

/-- A buffer that is cut outgrows the cap by at most one push. -/
theorem streamCuts_length_le {c : TextCoalescer} {released : List Char}
    {texts : List (List Char)} {m : Nat} (hfree : c.BoundaryFree)
    (hm : ∀ text ∈ texts, text.length ≤ m) :
    ∀ s ∈ streamCuts c released texts, s.buf.length ≤ c.limits.hardMaxChars + m := by
  induction texts generalizing c released with
  | nil => intro s hs; exact absurd hs List.not_mem_nil
  | cons text texts ih =>
    intro s hs
    rcases List.mem_append.mp hs with hs | hs
    · obtain ⟨q, hq, rfl⟩ := List.mem_map.mp hs
      have hlen := (cutStates_suffix _ _ _ q hq).length_le
      rw [List.length_append] at hlen
      have hpend := (findBoundary_none_iff.mp hfree).2
      have htext := hm text List.mem_cons_self
      dsimp only
      omega
    · have hrest := ih (c := (c.push text).2) (findBoundary_push c text)
        (fun t ht => hm t (List.mem_cons_of_mem _ ht)) s hs
      exact hrest

/-- **The cap and the marks**: a chunk, without the white space carried over, has at most
`hardMaxChars` characters unless the first qualifying mark of the buffer lies further on;
then it ends with that mark, and it outgrows the cap by at most the length of one push. -/
theorem chunk_length_le_iff (lim : Limits) (texts : List (List Char)) :
    ∀ s ∈ streamCuts { limits := lim } [] texts,
      (s.core.length ≤ lim.hardMaxChars ↔ ¬ MarkPastCap lim s.buf) ∧
      (lim.hardMaxChars < s.core.length →
        ∃ i, scan lim s.buf = some i ∧ s.core.length = i + 1) ∧
      ∀ m, (∀ text ∈ texts, text.length ≤ m) → s.core.length ≤ lim.hardMaxChars + m := by
  intro s hs
  have hlen := core_length hs
  obtain ⟨hfind, -⟩ := streamCuts_spec _ _ _ s hs
  refine ⟨?_, ?_, ?_⟩
  · rw [hlen]
    exact cut_le_iff hfind
  · intro hlong
    rcases findBoundary_cases hfind with ⟨i, hi, hcut⟩ | ⟨-, -, hcut⟩
    · exact ⟨i, hi, hlen.trans hcut⟩
    · have := (forcedCut_bounds lim s.buf).2
      dsimp only at hcut
      omega
  · intro m hm
    have hbuf := streamCuts_length_le (new_boundaryFree lim) hm s hs
    have := (findBoundary_inRange lim s.buf s.cut hfind).2
    dsimp only at hbuf
    omega

/-- `abc.` under a cap of two characters: its full stop lies past the cap. -/
theorem chunk_past_cap :
    let lim : Limits := ⟨0, 2, by decide, by decide⟩
    let s : StreamCut := ⟨[], "abc.".toList, 4, []⟩
    s ∈ streamCuts { limits := lim } [] ["abc.".toList] ∧ MarkPastCap lim s.buf := by
  intro lim s
  have hmem : s ∈ streamCuts { limits := lim } [] ["abc.".toList] := by decide
  obtain ⟨hiff, -⟩ := chunk_length_le_iff lim ["abc.".toList] s hmem
  refine ⟨hmem, ?_⟩
  by_contra hno
  exact absurd (hiff.mpr hno) (by decide)

/-- Under a cap of two characters `abc.` is one chunk of four: the scan reaches the full
stop before the length is looked at. -/
theorem chunk_longer_than_cap :
    ¬ ∀ (lim : Limits) (texts : List (List Char)),
      ∀ s ∈ streamCuts { limits := lim } [] texts, s.core.length ≤ lim.hardMaxChars := by
  intro h
  have hlen := h ⟨0, 2, by decide, by decide⟩ ["abc.".toList] ⟨[], "abc.".toList, 4, []⟩
    (by decide)
  exact absurd hlen (by decide)

/-! ## The boundary policy -/

/-- How a chunk may end, the carried white space set aside: in a sentence-final mark, in a
clause-final mark past the soft minimum, in white space within the cap, or at the cap when
nothing but the first character could be white space. -/
inductive BoundaryPolicy (lim : Limits) (core : List Char) : Prop where
  | sentence (ch : Char) (hlast : core.getLast? = some ch) (hmark : ch ∈ sentenceFinal)
  | clause (ch : Char) (hlast : core.getLast? = some ch) (hmark : ch ∈ clauseFinal)
      (hlong : lim.softMinChars < core.length)
  | white (ch : Char) (hlast : core.getLast? = some ch) (hspace : isspace ch = true)
      (hcap : core.length ≤ lim.hardMaxChars)
  | capped (hcap : core.length = lim.hardMaxChars)
      (hword : ∀ ch ∈ core.tail, isspace ch = false)

/-- The windows a forced cut handles: there is a blank to cut at, or no white space of any
kind to miss, or the window happens to end in white space or in a mark. -/
inductive WindowClear (lim : Limits) (window : List Char) : Prop where
  | blank (hblank : ' ' ∈ window.tail)
  | word (hword : ∀ ch ∈ window.tail, isspace ch = false)
  | edge (ch : Char) (hlast : window.getLast? = some ch)
      (hend : isspace ch = true ∨ ch ∈ sentenceFinal ∨
        (ch ∈ clauseFinal ∧ lim.softMinChars < lim.hardMaxChars))

/-- Where the cut has to be forced, the first `hardMaxChars` characters are such a window. -/
def ForcedCutClear (lim : Limits) (buf : List Char) : Prop :=
  (∀ i, qualifies lim buf i = false) → lim.hardMaxChars < buf.length →
    WindowClear lim (buf.take lim.hardMaxChars)

/-- A cut at a qualifying mark is within the policy. -/
theorem policy_of_scan {lim : Limits} {buf : List Char} {i : Nat}
    (h : scan lim buf = some i) : BoundaryPolicy lim (buf.take (i + 1)) := by
  obtain ⟨hlt, hq⟩ := scan_eq_some h
  obtain ⟨ch, hch, hkind⟩ := qualifies_kind hq
  have hlast := getLast?_take hch
  rcases hkind with hs | ⟨hc, hlong⟩
  · exact .sentence ch hlast hs
  · apply BoundaryPolicy.clause ch hlast hc
    rw [List.length_take]
    omega

/-- A window without a blank behind its first character is cut as a whole. -/
theorem policy_window_iff {lim : Limits} {window : List Char}
    (hlen : window.length = lim.hardMaxChars) (hblank : ' ' ∉ window.tail) :
    BoundaryPolicy lim window ↔ WindowClear lim window := by
  constructor
  · intro h
    cases h with
    | sentence ch hlast hmark => exact .edge ch hlast (Or.inr (Or.inl hmark))
    | clause ch hlast hmark hlong =>
      rw [hlen] at hlong
      exact .edge ch hlast (Or.inr (Or.inr ⟨hmark, hlong⟩))
    | white ch hlast hspace hcap => exact .edge ch hlast (Or.inl hspace)
    | capped hcap hword => exact .word hword
  · intro h
    cases h with
    | blank hb => exact absurd hb hblank
    | word hword => exact .capped hlen hword
    | edge ch hlast hend =>
      rcases hend with hspace | hs | ⟨hc, hlt⟩
      · exact .white ch hlast hspace (Nat.le_of_eq hlen)
      · exact .sentence ch hlast hs
      · exact .clause ch hlast hc (by omega)

/-- One cut keeps to the policy exactly when its buffer is clear for a forced cut. -/
theorem policy_cut_iff {lim : Limits} {buf : List Char} {cut : Nat}
    (h : findBoundary lim buf = some cut) :
    BoundaryPolicy lim (buf.take cut) ↔ ForcedCutClear lim buf := by
  rcases findBoundary_cases h with ⟨i, hi, rfl⟩ | ⟨hnone, hlong, rfl⟩
  · constructor
    · intro _ hno
      have := (scan_eq_some hi).2
      rw [hno i] at this
      exact absurd this (by simp)
    · intro _
      exact policy_of_scan hi
  · have hclear : ForcedCutClear lim buf ↔ WindowClear lim (buf.take lim.hardMaxChars) :=
      ⟨fun hc => hc (scan_eq_none hnone) hlong, fun hw _ _ => hw⟩
    rw [hclear]
    by_cases hblank : ' ' ∈ (buf.take lim.hardMaxChars).tail
    · obtain ⟨hle, hlast⟩ := forcedCut_of_blank hblank
      constructor
      · intro _
        exact .blank hblank
      · intro _
        apply BoundaryPolicy.white ' ' hlast (by decide)
        rw [List.length_take]
        omega
    · rw [forcedCut_of_no_blank hblank]
      apply policy_window_iff _ hblank
      rw [List.length_take]
      omega

/-- **Where a forced cut slices a word**: the chunks of any run of pushes, from any buffer,
end as the policy allows exactly when every buffer that had to be cut by force shows a blank
to cut at, or no white space at all, in its first `hardMaxChars` characters. -/
theorem boundary_policy_iff (c : TextCoalescer) (released : List Char)
    (texts : List (List Char)) :
    (∀ s ∈ streamCuts c released texts, BoundaryPolicy c.limits s.core) ↔
      ∀ s ∈ streamCuts c released texts, ForcedCutClear c.limits s.buf := by
  have hcut : ∀ s ∈ streamCuts c released texts,
      (BoundaryPolicy c.limits s.core ↔ ForcedCutClear c.limits s.buf) := by
    intro s hs
    exact policy_cut_iff (streamCuts_spec _ _ _ s hs).1
  exact ⟨fun h s hs => (hcut s hs).mp (h s hs), fun h s hs => (hcut s hs).mpr (h s hs)⟩

/-- Under a cap of four characters the text `ab`, newline, `cd` is cut inside `cd`: the
window has a newline to cut at, but no blank. -/
theorem newline_is_missed :
    ¬ ∀ (c : TextCoalescer) (texts : List (List Char)),
      ∀ s ∈ streamCuts c [] texts, BoundaryPolicy c.limits s.core := by
  intro h
  let lim : Limits := ⟨0, 4, by decide, by decide⟩
  have hpolicy := h { limits := lim } ["ab\ncd".toList] ⟨[], "ab\ncd".toList, 4, []⟩ (by decide)
  have hlast : StreamCut.core ⟨[], "ab\ncd".toList, 4, []⟩ = ['a', 'b', '\n', 'c'] := by decide
  rw [hlast] at hpolicy
  cases hpolicy with
  | sentence ch hch hmark =>
    obtain rfl : 'c' = ch := Option.some.inj hch
    exact absurd hmark (by decide)
  | clause ch hch hmark _ =>
    obtain rfl : 'c' = ch := Option.some.inj hch
    exact absurd hmark (by decide)
  | white ch hch hspace _ =>
    obtain rfl : 'c' = ch := Option.some.inj hch
    exact absurd hspace (by decide)
  | capped _ hword => exact absurd (hword '\n' (by decide)) (by decide)

/-! ## What a push leaves behind -/

theorem TextCoalescer.BoundaryFree.pending_le {c : TextCoalescer} (h : c.BoundaryFree) :
    c.pendingChars ≤ c.limits.hardMaxChars := (findBoundary_none_iff.mp h).2

theorem calls_limits (c : TextCoalescer) (ks : List Call) :
    (c.calls ks).2.limits = c.limits := by
  induction ks generalizing c with
  | nil => rfl
  | cons k ks ih =>
    have hcall : (c.call k).2.limits = c.limits := by
      cases k with
      | push text => exact push_limits c text
      | flush => exact flush_limits c
    exact (ih _).trans hcall

/-- **A push ends and leaves nothing to cut**: its loop stops within one iteration for every
character, every cut is in range, and afterwards the buffer has no boundary, fits the cap and
is a fixed point of an empty push. So the cap bounds the buffer between any two calls. -/
theorem push_restores_buffer (c : TextCoalescer) (text : List Char) :
    (∀ fuel, (c.buf ++ text).length ≤ fuel →
      cutLoop (findBoundary c.limits) isspace fuel (c.buf ++ text) =
        ((c.push text).1, (c.push text).2.buf)) ∧
    (∀ s ∈ streamCuts c [] [text], 1 ≤ s.cut ∧ s.cut ≤ s.buf.length) ∧
    findBoundary c.limits (c.push text).2.buf = none ∧
    (c.push text).2.pendingChars ≤ c.limits.hardMaxChars ∧
    (c.push text).2.push [] = ([], (c.push text).2) ∧
    ∀ (lim : Limits) (ks : List Call),
      (({ limits := lim } : TextCoalescer).calls ks).2.pendingChars ≤ lim.hardMaxChars := by
  have hfree : (c.push text).2.BoundaryFree := findBoundary_push c text
  refine ⟨?_, ?_, hfree, hfree.pending_le, push_nil hfree, ?_⟩
  · intro fuel hfuel
    exact Lib.cutLoop_fuel (findBoundary_inRange c.limits) _ _ _ hfuel (Nat.le_refl _)
  · intro s hs
    obtain ⟨hfind, -⟩ := streamCuts_spec _ _ _ s hs
    exact findBoundary_inRange c.limits s.buf s.cut hfind
  · intro lim ks
    have hend := (calls_boundaryFree (new_boundaryFree lim) ks).pending_le
    rw [calls_limits] at hend
    exact hend

end SupertonicServer.Coalescer
