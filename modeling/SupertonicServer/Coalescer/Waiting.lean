import SupertonicServer.Coalescer.Policy

/-!
# A mark behind a number

A sentence-final mark is passed over while the text up to it ends in a digit run. The test
reads the prefix of the buffer up to the mark, which later text does not change: a mark that
was passed over once is passed over by every later scan (`qualifies_append`). What follows
a held-back mark is therefore not what releases it; only a forced cut that happens to fall
into the white space right behind the mark does (`held_mark_released_iff`).
-/

namespace SupertonicServer.Coalescer

open Lib (cutAll cutPiece cutPiece_append_iff)

/-- More text on the right only adds digits to the right of a mark. -/
theorem decimalProtected_append {buf text : List Char} {i : Nat}
    (h : decimalProtected buf i = true) : decimalProtected (buf ++ text) i = true := by
  unfold decimalProtected at h ⊢
  simp only [Bool.and_eq_true, decide_eq_true_eq] at h ⊢
  obtain ⟨⟨⟨hpos, hlt⟩, hleft⟩, hright⟩ := h
  rw [List.getElem?_append_left (by omega), List.getElem?_append_left (by omega),
    List.length_append]
  exact ⟨⟨⟨hpos, by omega⟩, hleft⟩, hright⟩

/-- A mark that qualifies with more text behind the buffer qualified without it. -/
theorem qualifies_append {lim : Limits} {buf text : List Char} {i : Nat} (hi : i < buf.length)
    (h : qualifies lim (buf ++ text) i = true) : qualifies lim buf i = true := by
  have htake : (buf ++ text).take (i + 1) = buf.take (i + 1) :=
    List.take_append_of_le_length hi
  unfold qualifies at h ⊢
  rw [List.getElem?_append_left hi] at h
  split at h
  next => exact absurd h (by simp)
  next ch hch =>
    dsimp only at h ⊢
    split at h
    next => exact absurd h (by simp)
    next hmark =>
      rw [if_neg hmark]
      split at h
      next => exact absurd h (by simp)
      next hdec =>
        rw [if_neg (fun hd => hdec (decimalProtected_append hd)), ← htake]
        exact h

/-- A buffer that has been scanned in vain has no mark left for a later scan. -/
theorem scan_append_ge {lim : Limits} {buf text : List Char} {i : Nat}
    (hnone : scan lim buf = none) (h : scan lim (buf ++ text) = some i) : buf.length ≤ i := by
  rcases Nat.lt_or_ge i buf.length with hlt | hge
  · have hq := qualifies_append hlt (scan_eq_some h).2
    rw [scan_eq_none hnone i] at hq
    exact absurd hq (by simp)
  · exact hge

/-- The buffer ends in a sentence-final mark, and all that keeps the scan from cutting there
is the digit run it ends in. -/
structure HeldBack (buf : List Char) : Prop where
  mark : ∃ ch, buf.getLast? = some ch ∧ ch ∈ sentenceFinal
  run : endsInDigitRun buf = true

/-- The later text brings no boundary of its own, the whole outgrows the cap, and the cap
falls such that the forced cut hits the white space right behind the held-back mark: in the
part of the later text within the cap no blank stands behind the leading white space, and
either one stands in it, or that part is all white space and the buffer offers no blank. -/
structure CapBehindMark (lim : Limits) (buf later : List Char) : Prop where
  silent : ∀ i, qualifies lim (buf ++ later) i = false
  long : lim.hardMaxChars < (buf ++ later).length
  behind : ' ' ∉ (later.take (lim.hardMaxChars - buf.length)).dropWhile isspace
  reach : ' ' ∈ later.take (lim.hardMaxChars - buf.length) ∨
    (' ' ∉ buf.tail ∧ ∀ ch ∈ later.take (lim.hardMaxChars - buf.length), isspace ch = true)

/-- The first chunk of a push is the piece at the first cut. -/
theorem push_head? (c : TextCoalescer) (text : List Char) :
    (c.push text).1.head? =
      (findBoundary c.limits (c.buf ++ text)).map (cutPiece isspace (c.buf ++ text)) := by
  show (cutAll (findBoundary c.limits) isspace (c.buf ++ text)).1.head? = _
  cases h : findBoundary c.limits (c.buf ++ text) with
  | none => rw [Lib.cutAll_none (findBoundary_inRange _) h]; rfl
  | some cut => rw [Lib.cutAll_some (findBoundary_inRange _) h]; rfl

/-- No boundary mark is white space. -/
theorem isspace_of_mark {ch : Char} (h : ch ∈ boundaryMarks) : isspace ch = false := by
  have hall : boundaryMarks.all (fun m => !isspace m) = true := by decide
  simpa using List.all_eq_true.mp hall ch h

/-- The last occurrence is what `rfind` finds. -/
theorem rfind_eq {s : List Char} {c : Char} {i : Nat} (hat : s[i]? = some c)
    (hlast : ∀ j, i < j → s[j]? ≠ some c) : rfind s c = i := by
  rcases rfind_spec s c with ⟨-, hmem⟩ | ⟨k, hk, hkat, hklast⟩
  · exact absurd (List.mem_of_getElem? hat) hmem
  · have h1 : ¬ i < k := fun hlt => hlast k hlt hkat
    have h2 : ¬ k < i := fun hlt => hklast i hlt hat
    rw [hk]
    omega

/-- A forced cut behind the last blank of the first `hardMaxChars` characters. -/
theorem forcedCut_eq {lim : Limits} {buf : List Char} {i : Nat} (hpos : 0 < i)
    (hat : (buf.take lim.hardMaxChars)[i]? = some ' ')
    (hlast : ∀ j, i < j → (buf.take lim.hardMaxChars)[j]? ≠ some ' ') :
    forcedCut lim buf = i + 1 := by
  unfold forcedCut
  dsimp only
  rw [rfind_eq hat hlast, if_pos (by omega), Int.toNat_natCast]

/-- Up to its last blank a text is white space exactly when no blank stands behind its
leading white space. -/
theorem run_to_last_iff {window : List Char} {j : Nat} (hat : window[j]? = some ' ')
    (hlast : ∀ k, j < k → window[k]? ≠ some ' ') :
    (∀ ch ∈ window.take (j + 1), isspace ch = true) ↔ ' ' ∉ window.dropWhile isspace := by
  constructor
  · intro hrun hmem
    -- all of the blanks lie in the leading run, so none is left behind it
    have hdrop : window.dropWhile isspace = (window.drop (j + 1)).dropWhile isspace := by
      conv_lhs => rw [← List.take_append_drop (j + 1) window]
      exact List.dropWhile_append_of_pos hrun
    rw [hdrop] at hmem
    have hmem := (List.dropWhile_suffix isspace).subset hmem
    obtain ⟨k, hk⟩ := List.mem_iff_getElem?.mp hmem
    rw [List.getElem?_drop] at hk
    exact hlast _ (by omega) hk
  · intro hno ch hch
    -- the blank at `j` lies in the leading run, and with it all in front of it
    have hj : j < (window.takeWhile isspace).length := by
      rcases Nat.lt_or_ge j (window.takeWhile isspace).length with hlt | hge
      · exact hlt
      · have hsplit := List.takeWhile_append_dropWhile (p := isspace) (l := window)
        rw [← hsplit, List.getElem?_append_right hge] at hat
        exact absurd (List.mem_of_getElem? hat) hno
    have hpre : window.take (j + 1) <+: window.takeWhile isspace :=
      List.prefix_of_prefix_length_le (List.take_prefix _ _) (List.takeWhile_prefix _)
        (by rw [List.length_take]; omega)
    exact List.mem_takeWhile_imp (hpre.subset hch)

/-! ## Where a forced cut falls

The window of the cut is the old buffer and the part of the later text within the cap. -/

/-- The window of a forced cut, when the old buffer fits under the cap. -/
theorem window_append {lim : Limits} {old : List Char} (hfit : old.length ≤ lim.hardMaxChars)
    (later : List Char) :
    (old ++ later).take lim.hardMaxChars =
      old ++ later.take (lim.hardMaxChars - old.length) := by
  rw [List.take_append, List.take_of_length_le hfit]

/-- The later text has a blank within the cap: the cut is made behind the last one. -/
theorem forcedCut_in_later {lim : Limits} {old later : List Char} {j : Nat}
    (hfit : old.length ≤ lim.hardMaxChars) (hne : 0 < old.length)
    (hat : (later.take (lim.hardMaxChars - old.length))[j]? = some ' ')
    (hlast : ∀ k, j < k → (later.take (lim.hardMaxChars - old.length))[k]? ≠ some ' ') :
    forcedCut lim (old ++ later) = old.length + j + 1 := by
  apply forcedCut_eq (by omega)
  · rw [window_append hfit, List.getElem?_append_right (by omega), Nat.add_sub_cancel_left]
    exact hat
  · intro k hk
    rw [window_append hfit, List.getElem?_append_right (by omega)]
    exact hlast _ (by omega)

/-- It has none, but the old buffer has one: the cut is made behind that. -/
theorem forcedCut_in_old {lim : Limits} {old later : List Char} {i : Nat}
    (hfit : old.length ≤ lim.hardMaxChars)
    (hno : ' ' ∉ later.take (lim.hardMaxChars - old.length)) (hpos : 0 < i)
    (hat : old[i]? = some ' ') (hlast : ∀ j, i < j → old[j]? ≠ some ' ') :
    forcedCut lim (old ++ later) = i + 1 := by
  have hi : i < old.length := (List.getElem?_eq_some_iff.mp hat).1
  apply forcedCut_eq hpos
  · rw [window_append hfit, List.getElem?_append_left hi]
    exact hat
  · intro k hk hkat
    rw [window_append hfit] at hkat
    rcases Nat.lt_or_ge k old.length with hlt | hge
    · rw [List.getElem?_append_left hlt] at hkat
      exact hlast k hk hkat
    · rw [List.getElem?_append_right hge] at hkat
      exact hno (List.mem_of_getElem? hkat)

/-- Neither has one to cut at: the cut is made at the cap. -/
theorem forcedCut_at_cap {lim : Limits} {old later : List Char}
    (hfit : old.length ≤ lim.hardMaxChars) (hne : old ≠ []) (hold : ' ' ∉ old.tail)
    (hno : ' ' ∉ later.take (lim.hardMaxChars - old.length)) :
    forcedCut lim (old ++ later) = lim.hardMaxChars := by
  apply forcedCut_of_no_blank
  rw [window_append hfit, List.tail_append_of_ne_nil hne, List.mem_append]
  intro h
  exact h.elim hold hno

/-- The last blank of a buffer that ends in a mark stands in front of the mark. -/
theorem last_blank_before_mark {init : List Char} {mark : Char} (hmark : mark ∈ boundaryMarks)
    (hblank : ' ' ∈ (init ++ [mark]).tail) :
    ∃ i, 0 < i ∧ i < init.length ∧ (init ++ [mark])[i]? = some ' ' ∧
      ∀ j, i < j → (init ++ [mark])[j]? ≠ some ' ' := by
  have hpos := (rfind_pos_iff (init ++ [mark]) ' ').mpr hblank
  rcases rfind_spec (init ++ [mark]) ' ' with ⟨hnone, -⟩ | ⟨i, hi, hat, hlast⟩
  · omega
  · have hlt : i < (init ++ [mark]).length := (List.getElem?_eq_some_iff.mp hat).1
    have hne : i ≠ init.length := by
      intro he
      rw [he, List.getElem?_append_right (Nat.le_refl _), Nat.sub_self] at hat
      have hspace := isspace_of_mark hmark
      rw [Option.some.inj hat] at hspace
      exact absurd hspace (by decide)
    rw [List.length_append, List.length_singleton] at hlt
    exact ⟨i, by omega, by omega, hat, hlast⟩

/-- Where a forced cut falls relative to a mark that ends the old buffer. `window` is the
part of the later text within the cap. -/
theorem forcedCut_behind_iff {lim : Limits} {init later : List Char} {mark : Char}
    (hmark : mark ∈ boundaryMarks) (hcap : init.length + 1 ≤ lim.hardMaxChars) :
    let window := later.take (lim.hardMaxChars - (init.length + 1))
    (init.length < forcedCut lim (init ++ [mark] ++ later) ∧
      ∀ ch ∈ later.take (forcedCut lim (init ++ [mark] ++ later) - (init.length + 1)),
        isspace ch = true) ↔
      ' ' ∉ window.dropWhile isspace ∧
      (' ' ∈ window ∨ (' ' ∉ (init ++ [mark]).tail ∧ ∀ ch ∈ window, isspace ch = true)) := by
  have hlen : init.length + 1 = (init ++ [mark]).length := by simp
  rw [hlen] at hcap ⊢
  intro window
  rcases rfind_spec window ' ' with ⟨-, hno⟩ | ⟨j, -, hat, hlast⟩
  · have hbehind : ' ' ∉ window.dropWhile isspace :=
      fun hmem => hno ((List.dropWhile_suffix isspace).subset hmem)
    by_cases hold : ' ' ∈ (init ++ [mark]).tail
    · -- the cut falls short of the mark
      obtain ⟨i, hpos, hshort, hat, hlast⟩ := last_blank_before_mark hmark hold
      rw [forcedCut_in_old hcap hno hpos hat hlast]
      constructor
      · intro h
        omega
      · intro h
        rcases h.2 with hw | ⟨hnot, -⟩
        · exact absurd hw hno
        · exact absurd hold hnot
    · rw [forcedCut_at_cap hcap (by simp) hold hno]
      constructor
      · intro h
        exact ⟨hbehind, Or.inr ⟨hold, h.2⟩⟩
      · intro h
        rcases h.2 with hw | ⟨-, hrun⟩
        · exact absurd hw hno
        · exact ⟨by omega, hrun⟩
  · have hrun : later.take (j + 1) = window.take (j + 1) := by
      have hj : j < window.length := (List.getElem?_eq_some_iff.mp hat).1
      rw [List.length_take] at hj
      rw [List.take_take, Nat.min_eq_left (by omega)]
    rw [forcedCut_in_later hcap (by omega) hat hlast, Nat.add_assoc, Nat.add_sub_cancel_left,
      hrun, run_to_last_iff hat hlast]
    constructor
    · intro h
      exact ⟨h.2, Or.inl (List.mem_of_getElem? hat)⟩
    · intro h
      exact ⟨by omega, h.1⟩

/-- **What becomes of a held-back mark**: whatever is pushed next, the text up to the mark
and the white space behind it is the first chunk only when the cap falls right behind the
mark. -/
theorem held_mark_released_iff (c : TextCoalescer) (text later : List Char)
    (hheld : HeldBack (c.push text).2.buf) :
    ((c.push text).2.push later).1.head? =
        some ((c.push text).2.buf ++ later.takeWhile isspace) ↔
      CapBehindMark c.limits (c.push text).2.buf later := by
  have hfree : findBoundary c.limits (c.push text).2.buf = none := findBoundary_push c text
  obtain ⟨hscan, hfits⟩ := findBoundary_none_iff.mp hfree
  rw [push_head?, push_limits]
  generalize (c.push text).2.buf = buf at hheld hscan hfits ⊢
  obtain ⟨mark, hmark, hfinal⟩ := hheld.mark
  obtain ⟨init, rfl⟩ := List.getLast?_eq_some_iff.mp hmark
  have hlen : (init ++ [mark]).length = init.length + 1 := by simp
  have hbound : mark ∈ boundaryMarks := List.mem_append_left _ hfinal
  rw [hlen] at hfits
  constructor
  · intro hhead
    obtain ⟨cut, hfind, hpiece⟩ := Option.map_eq_some_iff.mp hhead
    rw [cutPiece_append_iff (isspace_of_mark hbound)] at hpiece
    rcases findBoundary_cases hfind with ⟨i, hi, rfl⟩ | ⟨hnone, hlong, rfl⟩
    · -- a mark further on is no white space
      obtain ⟨ch, hch, hmark', -⟩ := qualifies_mark (scan_eq_some hi).2
      have hge := scan_append_ge hscan hi
      rw [List.getElem?_append_right hge, hlen] at hch
      rw [hlen] at hge
      have hmem : ch ∈ later.take (i + 1 - (init.length + 1)) := by
        apply List.mem_of_getElem? (i := i - (init.length + 1))
        rw [List.getElem?_take_of_lt (by omega)]
        exact hch
      have hspace := hpiece.2 ch hmem
      rw [isspace_of_mark hmark'] at hspace
      exact absurd hspace (by simp)
    · obtain ⟨hbehind, hreach⟩ := (forcedCut_behind_iff hbound hfits).mp hpiece
      rw [← hlen] at hbehind hreach
      exact ⟨scan_eq_none hnone, hlong, hbehind, hreach⟩
  · intro h
    have hforced : findBoundary c.limits (init ++ [mark] ++ later) =
        some (forcedCut c.limits (init ++ [mark] ++ later)) := by
      unfold findBoundary
      split
      next i hi =>
        have hq := (scan_eq_some hi).2
        rw [h.silent i] at hq
        exact absurd hq (by simp)
      next => rw [if_pos h.long]
    rw [hforced, Option.map_some, Option.some_inj, cutPiece_append_iff (isspace_of_mark hbound)]
    have hlands := And.intro h.behind h.reach
    rw [hlen] at hlands
    exact (forcedCut_behind_iff hbound hfits).mpr hlands

/-- `Call 98765.` is held back for its digits; the next word does not release it. -/
theorem held_mark_swallowed :
    ¬ ∀ (c : TextCoalescer) (text later : List Char), HeldBack (c.push text).2.buf →
      (later.head?).any isspace = true →
      ((c.push text).2.push later).1.head? =
        some ((c.push text).2.buf ++ later.takeWhile isspace) := by
  intro h
  have hheld : HeldBack (TextCoalescer.fresh.push "Call 98765.".toList).2.buf :=
    ⟨⟨'.', by decide, by decide⟩, by decide⟩
  have hhead := h TextCoalescer.fresh "Call 98765.".toList " Thanks".toList hheld (by decide)
  exact absurd hhead (by decide)

/-- Under a cap of twelve characters the blank behind the mark is where the cut is forced. -/
theorem held_mark_released_by_cap :
    let c : TextCoalescer := { limits := ⟨0, 12, by decide, by decide⟩ }
    let b := (c.push "Call 98765.".toList).2
    HeldBack b.buf ∧ CapBehindMark c.limits b.buf " Thanks".toList := by
  intro c b
  have hheld : HeldBack b.buf := ⟨⟨'.', by decide, by decide⟩, by decide⟩
  have hiff := held_mark_released_iff c "Call 98765.".toList " Thanks".toList hheld
  exact ⟨hheld, hiff.mp (by decide)⟩

end SupertonicServer.Coalescer
