import SupertonicServer.Coalescer.Conserve

/-!
# White space between chunks

The white space behind a cut travels with the chunk in front of it, as far as it is in the
buffer by then. A later chunk can begin with white space in one way only: the cut consumed
the whole buffer, and the next text brings the white space (`stray_space_iff`).
-/

namespace SupertonicServer.Coalescer

open Lib (cutAll cutRest cutRest_head cutAll_head)

/-- The text begins with a white-space character. -/
def startsWithSpace (text : List Char) : Bool := (text.head?).any isspace

/-- The chunks returned by pushing `texts` and flushing. -/
def TextCoalescer.utterance (c : TextCoalescer) (texts : List (List Char)) : List Chunk :=
  (c.calls (texts.map .push ++ [.flush])).1

/-- No chunk after the first begins with white space, and so none is all white space. -/
def StraySpaceFree (chunks : List Chunk) : Prop :=
  ∀ chunk ∈ chunks.tail, startsWithSpace chunk = false ∧ ∃ ch ∈ chunk, isspace ch = false

/-- Along the pushes of `texts`: once a chunk has been released, no text that begins with
white space is pushed into an empty buffer. -/
def SpaceMeetsText (released : Bool) (c : TextCoalescer) : List (List Char) → Prop
  | [] => True
  | text :: texts =>
    (released = true → c.buf = [] → startsWithSpace text = false) ∧
    SpaceMeetsText (released || !(c.push text).1.isEmpty) (c.push text).2 texts

theorem startsWithSpace_append {buf text : List Char} :
    startsWithSpace (buf ++ text) = true ↔
      startsWithSpace buf = true ∨ (buf = [] ∧ startsWithSpace text = true) := by
  cases buf with
  | nil => simp [startsWithSpace]
  | cons ch rest => simp [startsWithSpace]

theorem utterance_nil (c : TextCoalescer) : c.utterance [] = c.flush.1 := by
  show c.flush.1 ++ [] = c.flush.1
  rw [List.append_nil]

theorem utterance_cons (c : TextCoalescer) (text : List Char) (texts : List (List Char)) :
    c.utterance (text :: texts) = (c.push text).1 ++ (c.push text).2.utterance texts := rfl

/-- An utterance is the pending text and what is pushed, in chunks. -/
theorem utterance_flatten (c : TextCoalescer) (texts : List (List Char)) :
    (c.utterance texts).flatten = c.buf ++ texts.flatten := by
  induction texts generalizing c with
  | nil => rw [utterance_nil, flush_flatten, List.flatten_nil, List.append_nil]
  | cons text texts ih =>
    rw [utterance_cons, List.flatten_append, ih, ← List.append_assoc, push_flatten]
    simp

theorem utterance_ne_nil (c : TextCoalescer) (texts : List (List Char)) :
    ∀ chunk ∈ c.utterance texts, chunk ≠ [] := calls_ne_nil c _

/-- Chunks none of which begins with white space make a text that does not. -/
theorem startsWithSpace_flatten {chunks : List Chunk} (hne : ∀ chunk ∈ chunks, chunk ≠ [])
    (h : ∀ chunk ∈ chunks, startsWithSpace chunk = false) :
    startsWithSpace chunks.flatten = false := by
  cases chunks with
  | nil => rfl
  | cons chunk chunks =>
    rw [List.flatten_cons, Bool.eq_false_iff, ne_eq, startsWithSpace_append, not_or]
    constructor
    · rw [h chunk List.mem_cons_self]
      simp
    · intro hnil
      exact hne chunk List.mem_cons_self hnil.1

/-- Pushing behind text that does not begin with white space. -/
theorem push_startsWithSpace {c : TextCoalescer} {text : List Char}
    (h : startsWithSpace (c.buf ++ text) = false) :
    (∀ chunk ∈ (c.push text).1, startsWithSpace chunk = false) ∧
    startsWithSpace (c.push text).2.buf = false :=
  cutAll_head (findBoundary_inRange c.limits) (c.buf ++ text) h

/-- Behind the first chunk of a push nothing begins with white space. -/
theorem push_tail_startsWithSpace {c : TextCoalescer} {text : List Char}
    (h : (c.push text).1 ≠ []) :
    (∀ chunk ∈ (c.push text).1.tail, startsWithSpace chunk = false) ∧
    startsWithSpace (c.push text).2.buf = false := by
  unfold TextCoalescer.push at h ⊢
  dsimp only at h ⊢
  cases hfind : findBoundary c.limits (c.buf ++ text) with
  | none =>
    rw [Lib.cutAll_none (findBoundary_inRange _) hfind] at h
    exact absurd rfl h
  | some cut =>
    rw [Lib.cutAll_some (findBoundary_inRange _) hfind]
    exact cutAll_head (findBoundary_inRange c.limits) _ (cutRest_head _ cut)

/-- An utterance of which no chunk begins with white space starts without it. -/
theorem startsWithSpace_of_utterance {c : TextCoalescer} {texts : List (List Char)}
    (h : ∀ chunk ∈ c.utterance texts, startsWithSpace chunk = false) :
    startsWithSpace (c.buf ++ texts.flatten) = false := by
  rw [← utterance_flatten]
  exact startsWithSpace_flatten (utterance_ne_nil c texts) h

/-- White space pushed into an empty buffer comes out at the head of the next chunk. -/
theorem utterance_of_space {c : TextCoalescer} {text : List Char} (hnil : c.buf = [])
    (hspace : startsWithSpace text = true) (texts : List (List Char)) :
    ¬ ∀ chunk ∈ c.utterance (text :: texts), startsWithSpace chunk = false := by
  intro h
  have hstart := startsWithSpace_of_utterance h
  rw [List.flatten_cons, hnil, List.nil_append] at hstart
  have hwhole : startsWithSpace (text ++ texts.flatten) = true :=
    startsWithSpace_append.mpr (Or.inl hspace)
  rw [hstart] at hwhole
  exact absurd hwhole (by simp)

/-- Flushing releases the buffer as it stands. -/
theorem mem_flush {c : TextCoalescer} {chunk : Chunk} (h : chunk ∈ c.flush.1) :
    chunk = c.buf := by
  unfold TextCoalescer.flush at h
  split at h
  next => exact absurd h List.not_mem_nil
  next => exact List.mem_singleton.mp h

/-- The run after the first chunk: the buffer does not begin with white space, and that
stays so while no text brings it into an empty buffer. -/
theorem utterance_space_iff {c : TextCoalescer} (hbuf : startsWithSpace c.buf = false)
    (texts : List (List Char)) :
    (∀ chunk ∈ c.utterance texts, startsWithSpace chunk = false) ↔
      SpaceMeetsText true c texts := by
  induction texts generalizing c with
  | nil =>
    rw [utterance_nil]
    constructor
    · intro _
      trivial
    · intro _ chunk hc
      rw [mem_flush hc]
      exact hbuf
  | cons text texts ih =>
    unfold SpaceMeetsText
    by_cases htext : c.buf = [] ∧ startsWithSpace text = true
    · constructor
      · intro h
        exact absurd h (utterance_of_space htext.1 htext.2 texts)
      · intro h
        have := h.1 rfl htext.1
        rw [htext.2] at this
        exact absurd this (by simp)
    · have hstart : startsWithSpace (c.buf ++ text) = false := by
        rw [Bool.eq_false_iff, ne_eq, startsWithSpace_append, hbuf]
        simpa using htext
      obtain ⟨hchunks, hrest⟩ := push_startsWithSpace hstart
      have htail := ih hrest
      rw [utterance_cons, Bool.true_or]
      constructor
      · intro h
        refine ⟨?_, htail.mp fun chunk hc => h chunk (List.mem_append_right _ hc)⟩
        intro _ hnil
        simpa [hnil] using htext
      · intro h chunk hc
        rcases List.mem_append.mp hc with hc | hc
        · exact hchunks chunk hc
        · exact htail.mpr h.2 chunk hc

/-- The run up to the first chunk, which may begin with white space itself. -/
theorem utterance_tail_space_iff (c : TextCoalescer) (texts : List (List Char)) :
    (∀ chunk ∈ (c.utterance texts).tail, startsWithSpace chunk = false) ↔
      SpaceMeetsText false c texts := by
  induction texts generalizing c with
  | nil =>
    have hshort : (c.utterance []).tail = [] := by
      rw [utterance_nil]
      unfold TextCoalescer.flush
      split <;> rfl
    rw [hshort]
    simp [SpaceMeetsText]
  | cons text texts ih =>
    unfold SpaceMeetsText
    rw [utterance_cons]
    cases hpush : (c.push text).1 with
    | nil =>
      rw [List.nil_append, ih]
      simp
    | cons first chunks =>
      have hne : (c.push text).1 ≠ [] := by rw [hpush]; simp
      obtain ⟨hchunks, hrest⟩ := push_tail_startsWithSpace hne
      rw [hpush, List.tail_cons] at hchunks
      have htail := utterance_space_iff hrest texts
      constructor
      · intro h
        refine ⟨fun hno => absurd hno (by simp), ?_⟩
        exact htail.mp fun chunk hc => h chunk (List.mem_append_right _ hc)
      · intro h chunk hc
        rcases List.mem_append.mp hc with hc | hc
        · exact hchunks chunk hc
        · exact htail.mpr h.2 chunk hc

/-- **Stray white space**: the chunks of an utterance after the first are free of leading
white space exactly when, once a chunk is out, no text that begins with white space is
pushed into an empty buffer. -/
theorem stray_space_iff (lim : Limits) (texts : List (List Char)) :
    StraySpaceFree (({ limits := lim } : TextCoalescer).utterance texts) ↔
      SpaceMeetsText false { limits := lim } texts := by
  rw [← utterance_tail_space_iff]
  constructor
  · intro h chunk hc
    exact (h chunk hc).1
  · intro h chunk hc
    refine ⟨h chunk hc, ?_⟩
    have hne := utterance_ne_nil _ texts chunk (List.mem_of_mem_tail hc)
    have hhead := h chunk hc
    cases chunk with
    | nil => exact absurd rfl hne
    | cons ch rest => exact ⟨ch, List.mem_cons_self, hhead⟩

/-- `Done.` goes out before the blank behind it arrives. -/
theorem space_after_push :
    ¬ ∀ (lim : Limits) (texts : List (List Char)),
      StraySpaceFree (({ limits := lim } : TextCoalescer).utterance texts) := by
  intro h
  have hfree := h Limits.default ["Done.".toList, " And".toList] " And".toList (by decide)
  exact absurd hfree.1 (by decide)

end SupertonicServer.Coalescer
