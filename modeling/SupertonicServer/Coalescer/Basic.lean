import SupertonicServer.Lib.Cut
import SupertonicServer.Coalescer.Chars

/-!
# The text coalescer

`TextCoalescer` of `coalescer.py`: streamed text is buffered, and a chunk is released at a
sentence-final mark, at a clause-final mark once the chunk is longer than `softMinChars`, or
when the buffer outgrows `hardMaxChars`.

The `for i, ch in enumerate(buf)` scan returns at the first index whose body does not
`continue`, so it is the first index that `qualifies`; `findBoundary` adds the forced cut.
The cut loop of `push` is `Lib.cutAll` for `findBoundary` and the white space carried over
with a chunk; `findBoundary_inRange` is what makes its `while True` end.
-/

namespace SupertonicServer.Coalescer

open Lib (cutAll cutLoop cutPiece cutRest cutStates CutInRange)

/-- A chunk of text handed to synthesis. -/
abbrev Chunk := List Char

/-- `_SENTENCE_FINAL`. -/
def sentenceFinal : List Char := ['.', '?', '!', '।']

/-- `_CLAUSE_FINAL`. -/
def clauseFinal : List Char := [',', ';', ':']

/-- `_BOUNDARY`. -/
def boundaryMarks : List Char := sentenceFinal ++ clauseFinal

/-- The two thresholds of a coalescer, with what `__init__` checks about them. -/
structure Limits where
  softMinChars : Nat
  hardMaxChars : Nat
  hard_pos : 0 < hardMaxChars
  soft_le_hard : softMinChars ≤ hardMaxChars

/-- `TextCoalescer.__init__` on its two arguments: the checks in order, with their texts. -/
def Limits.make (softMin hardMax : Int) : Except String Limits :=
  if softMin < 0 then .error "soft_min_chars must be >= 0"
  else if hpos : hardMax ≤ 0 then .error "hard_max_chars must be > 0"
  else if hle : hardMax < softMin then .error "hard_max_chars must be >= soft_min_chars"
  else .ok ⟨softMin.toNat, hardMax.toNat, by omega, by omega⟩

/-- The default arguments, `soft_min_chars=40` and `hard_max_chars=200`. -/
def Limits.default : Limits := ⟨40, 200, by decide, by decide⟩

/-- `__init__` accepts exactly the legal pairs, and stores them unchanged. -/
theorem Limits.make_ok_iff (softMin hardMax : Int) (lim : Limits) :
    Limits.make softMin hardMax = .ok lim ↔
      softMin = lim.softMinChars ∧ hardMax = lim.hardMaxChars := by
  obtain ⟨s, h, hpos, hle⟩ := lim
  show Limits.make softMin hardMax = _ ↔ softMin = (s : Int) ∧ hardMax = (h : Int)
  unfold Limits.make
  constructor
  · intro heq
    split at heq
    next => exact absurd heq (by simp)
    next h1 =>
      split at heq
      next => exact absurd heq (by simp)
      next h2 =>
        split at heq
        next => exact absurd heq (by simp)
        next h3 =>
          simp only [Except.ok.injEq, Limits.mk.injEq] at heq
          omega
  · intro hstored
    obtain ⟨rfl, rfl⟩ := hstored
    rw [if_neg (by omega), dif_neg (by omega), dif_neg (by omega)]
    simp

/-- A `TextCoalescer` object. -/
structure TextCoalescer where
  limits : Limits
  buf : List Char := []

/-- `TextCoalescer()`, as a session makes one. -/
def TextCoalescer.fresh : TextCoalescer := { limits := Limits.default }

/-- `TextCoalescer.pending_chars`. -/
def TextCoalescer.pendingChars (c : TextCoalescer) : Nat := c.buf.length

/-- `_ends_in_digit_run`: at least 60% digits among the last 8 characters of the trailing
token. The quotient of two numbers up to 8 is compared with `0.6` exactly. -/
def endsInDigitRun (s : List Char) : Bool :=
  -- the trailing token: the characters behind the last blank, tab or newline
  let tailStart := (max (max (rfind s ' ') (rfind s '\t')) (rfind s '\n') + 1).toNat
  let tail := s.drop tailStart
  if tail.isEmpty then false
  else
    let window := tail.drop (tail.length - 8)
    let digits := window.countP isdigit
    3 * window.length ≤ 5 * digits

/-- `0 < i < n - 1 and buf[i - 1].isdigit() and buf[i + 1].isdigit()`. -/
def decimalProtected (buf : List Char) (i : Nat) : Bool :=
  0 < i && i + 1 < buf.length && (buf[i - 1]?).any isdigit && (buf[i + 1]?).any isdigit

/-- The body of the scan at index `i`: does it return rather than `continue`? -/
def qualifies (lim : Limits) (buf : List Char) (i : Nat) : Bool :=
  match buf[i]? with
  | none => false
  | some ch =>
    if !boundaryMarks.contains ch then false
    else if decimalProtected buf i then false
    else
      let cut := i + 1
      -- a clause-final mark has to clear the soft minimum first
      if sentenceFinal.contains ch then !endsInDigitRun (buf.take cut)
      else if cut ≤ lim.softMinChars then false
      else !endsInDigitRun (buf.take cut)

/-- The `for` loop of `_find_boundary`: the index of the first qualifying mark. -/
def scan (lim : Limits) (buf : List Char) : Option Nat :=
  (List.range buf.length).find? (qualifies lim buf)

/-- The forced cut: after the last blank within the cap, else at the cap. -/
def forcedCut (lim : Limits) (buf : List Char) : Nat :=
  let ws := rfind (buf.take lim.hardMaxChars) ' '
  if 0 < ws then ws.toNat + 1 else lim.hardMaxChars

/-- `_find_boundary`: the exclusive end of the chunk to emit. -/
def findBoundary (lim : Limits) (buf : List Char) : Option Nat :=
  match scan lim buf with
  | some i => some (i + 1)
  | none => if lim.hardMaxChars < buf.length then some (forcedCut lim buf) else none

/-- `push`: the chunks released and the coalescer afterwards. -/
def TextCoalescer.push (c : TextCoalescer) (text : List Char) : List Chunk × TextCoalescer :=
  let r := cutAll (findBoundary c.limits) isspace (c.buf ++ text)
  (r.1, { c with buf := r.2 })

/-- `flush`: the leftover as one chunk, if there is any. -/
def TextCoalescer.flush (c : TextCoalescer) : List Chunk × TextCoalescer :=
  if c.buf.isEmpty then ([], c) else ([c.buf], { c with buf := [] })

/-! ## What one scan returns -/

/-- The scan returns the first qualifying index. -/
theorem scan_eq_some_iff {lim : Limits} {buf : List Char} {i : Nat} :
    scan lim buf = some i ↔
      qualifies lim buf i = true ∧ i < buf.length ∧ ∀ j < i, qualifies lim buf j = false := by
  unfold scan
  rw [List.find?_range_eq_some, List.mem_range]
  simp only [Bool.not_eq_true']

theorem scan_eq_some {lim : Limits} {buf : List Char} {i : Nat} (h : scan lim buf = some i) :
    i < buf.length ∧ qualifies lim buf i = true :=
  ⟨(scan_eq_some_iff.mp h).2.1, (scan_eq_some_iff.mp h).1⟩

theorem scan_eq_none {lim : Limits} {buf : List Char} (h : scan lim buf = none) :
    ∀ i, qualifies lim buf i = false := by
  intro i
  by_cases hi : i < buf.length
  · have := List.find?_eq_none.mp h i (List.mem_range.mpr hi)
    simpa using this
  · unfold qualifies
    rw [List.getElem?_eq_none (by omega)]

/-- A qualifying index is a boundary mark outside the decimal protection. -/
theorem qualifies_mark {lim : Limits} {buf : List Char} {i : Nat}
    (h : qualifies lim buf i = true) :
    ∃ ch, buf[i]? = some ch ∧ ch ∈ boundaryMarks ∧ decimalProtected buf i = false := by
  unfold qualifies at h
  split at h
  next => exact absurd h (by simp)
  next ch hch =>
    split at h
    next => exact absurd h (by simp)
    next hmark =>
      split at h
      next => exact absurd h (by simp)
      next hdec => exact ⟨ch, hch, by simpa using hmark, by simpa using hdec⟩

/-- A forced cut lies between `1` and the cap. -/
theorem forcedCut_bounds (lim : Limits) (buf : List Char) :
    1 ≤ forcedCut lim buf ∧ forcedCut lim buf ≤ lim.hardMaxChars := by
  have hpos := lim.hard_pos
  have hlt := rfind_lt_length (buf.take lim.hardMaxChars) ' '
  rw [List.length_take] at hlt
  unfold forcedCut
  dsimp only
  split
  next hws => omega
  next => omega

/-- Every cut lies between `1` and the buffer length, so the loop of `push` ends. -/
theorem findBoundary_inRange (lim : Limits) : CutInRange (findBoundary lim) := by
  intro buf k h
  unfold findBoundary at h
  split at h
  next i hi =>
    have := (scan_eq_some hi).1
    simp only [Option.some.injEq] at h
    omega
  next =>
    split at h
    next hlong =>
      -- a cut is forced only in a buffer longer than the cap, and falls within the cap
      obtain ⟨h1, h2⟩ := forcedCut_bounds lim buf
      simp only [Option.some.injEq] at h
      omega
    next => exact absurd h (by simp)

/-- The loop of `push`, unrolled once: the equation of its `while True`. -/
theorem push_loop_eq (lim : Limits) (buf : List Char) :
    cutAll (findBoundary lim) isspace buf =
      match findBoundary lim buf with
      | none => ([], buf)
      | some cut =>
        let r := cutAll (findBoundary lim) isspace (cutRest isspace buf cut)
        (cutPiece isspace buf cut :: r.1, r.2) :=
  Lib.cutAll_eq (findBoundary_inRange lim) buf

@[simp] theorem push_limits (c : TextCoalescer) (text : List Char) :
    (c.push text).2.limits = c.limits := rfl

@[simp] theorem flush_limits (c : TextCoalescer) : c.flush.2.limits = c.limits := by
  unfold TextCoalescer.flush
  split <;> rfl

/-- After a push no boundary is left in the buffer. -/
theorem findBoundary_push (c : TextCoalescer) (text : List Char) :
    findBoundary c.limits (c.push text).2.buf = none :=
  Lib.cutAll_rest (findBoundary_inRange c.limits) _

end SupertonicServer.Coalescer
