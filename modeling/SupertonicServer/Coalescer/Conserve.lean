import SupertonicServer.Coalescer.Basic

/-!
# No character is lost or repeated

`push` and `flush` in any order, on any text: the chunks released so far followed by the
buffer are the text pushed so far. A single call conserves text because the cut loop does
(`Lib.cutAll_flatten`); the rest is an induction over the calls.
-/

namespace SupertonicServer.Coalescer

/-- A call on a coalescer. -/
inductive Call where
  | push (text : List Char)
  | flush

/-- The text a call hands over. -/
def Call.text : Call → List Char
  | .push text => text
  | .flush => []

def TextCoalescer.call (c : TextCoalescer) : Call → List Chunk × TextCoalescer
  | .push text => c.push text
  | .flush => c.flush

/-- A sequence of calls: every chunk returned, in order, and the coalescer afterwards. -/
def TextCoalescer.calls (c : TextCoalescer) : List Call → List Chunk × TextCoalescer
  | [] => ([], c)
  | k :: ks =>
    let r := c.call k
    let rest := r.2.calls ks
    (r.1 ++ rest.1, rest.2)

theorem push_flatten (c : TextCoalescer) (text : List Char) :
    (c.push text).1.flatten ++ (c.push text).2.buf = c.buf ++ text :=
  Lib.cutAll_flatten (c.buf ++ text)

theorem push_ne_nil (c : TextCoalescer) (text : List Char) :
    ∀ chunk ∈ (c.push text).1, chunk ≠ [] :=
  Lib.cutAll_ne_nil (findBoundary_inRange c.limits) (c.buf ++ text)

theorem flush_flatten (c : TextCoalescer) : c.flush.1.flatten = c.buf := by
  unfold TextCoalescer.flush
  split
  next h => rw [List.isEmpty_iff.mp h]; rfl
  next => simp

theorem flush_buf (c : TextCoalescer) : c.flush.2.buf = [] := by
  unfold TextCoalescer.flush
  split
  next h => exact List.isEmpty_iff.mp h
  next => rfl

theorem flush_ne_nil (c : TextCoalescer) : ∀ chunk ∈ c.flush.1, chunk ≠ [] := by
  unfold TextCoalescer.flush
  split
  next => simp
  next h =>
    intro chunk hc
    rw [List.mem_singleton.mp hc]
    exact fun he => h (List.isEmpty_iff.mpr he)

/-- One call conserves text. -/
theorem call_flatten (c : TextCoalescer) (k : Call) :
    (c.call k).1.flatten ++ (c.call k).2.buf = c.buf ++ k.text := by
  cases k with
  | push text => exact push_flatten c text
  | flush =>
    show c.flush.1.flatten ++ c.flush.2.buf = c.buf ++ []
    rw [flush_flatten, flush_buf]

theorem call_ne_nil (c : TextCoalescer) (k : Call) : ∀ chunk ∈ (c.call k).1, chunk ≠ [] := by
  cases k with
  | push text => exact push_ne_nil c text
  | flush => exact flush_ne_nil c

theorem calls_append (c : TextCoalescer) (ks js : List Call) :
    c.calls (ks ++ js) =
      ((c.calls ks).1 ++ ((c.calls ks).2.calls js).1, ((c.calls ks).2.calls js).2) := by
  induction ks generalizing c with
  | nil => rfl
  | cons k ks ih =>
    simp only [List.cons_append, TextCoalescer.calls, ih, List.append_assoc]

/-- A sequence of calls conserves text, from any buffer. -/
theorem calls_flatten (c : TextCoalescer) (ks : List Call) :
    (c.calls ks).1.flatten ++ (c.calls ks).2.buf = c.buf ++ (ks.map Call.text).flatten := by
  induction ks generalizing c with
  | nil => simp [TextCoalescer.calls]
  | cons k ks ih =>
    simp only [TextCoalescer.calls, List.flatten_append, List.map_cons, List.flatten_cons]
    rw [List.append_assoc, ih, ← List.append_assoc, call_flatten, List.append_assoc]

theorem calls_ne_nil (c : TextCoalescer) (ks : List Call) :
    ∀ chunk ∈ (c.calls ks).1, chunk ≠ [] := by
  induction ks generalizing c with
  | nil => simp [TextCoalescer.calls]
  | cons k ks ih =>
    intro chunk hc
    rcases List.mem_append.mp hc with hc | hc
    · exact call_ne_nil c k chunk hc
    · exact ih _ chunk hc

/-- The buffer holds nothing that could be cut. -/
def TextCoalescer.BoundaryFree (c : TextCoalescer) : Prop := findBoundary c.limits c.buf = none

theorem new_boundaryFree (lim : Limits) : TextCoalescer.BoundaryFree { limits := lim } :=
  (findBoundary_inRange lim).nil

theorem fresh_boundaryFree : TextCoalescer.fresh.BoundaryFree := new_boundaryFree _

theorem call_boundaryFree (c : TextCoalescer) (k : Call) : (c.call k).2.BoundaryFree := by
  cases k with
  | push text => exact findBoundary_push c text
  | flush =>
    show findBoundary c.flush.2.limits c.flush.2.buf = none
    rw [flush_buf]
    exact (findBoundary_inRange _).nil

/-- Between two calls the buffer is always free of boundaries. -/
theorem calls_boundaryFree {c : TextCoalescer} (h : c.BoundaryFree) (ks : List Call) :
    (c.calls ks).2.BoundaryFree := by
  induction ks generalizing c with
  | nil => exact h
  | cons k ks ih => exact ih (call_boundaryFree c k)

/-- Pushing nothing into such a buffer does nothing. -/
theorem push_nil {c : TextCoalescer} (h : c.BoundaryFree) : c.push [] = ([], c) := by
  unfold TextCoalescer.push
  rw [List.append_nil, Lib.cutAll_none (findBoundary_inRange c.limits) h]

/-- **Text conservation**: for a new coalescer with any legal limits and any calls, the
chunks and the buffer are the text pushed, no chunk is empty, and a flush empties the
buffer. -/
theorem text_conserved (lim : Limits) (ks : List Call) :
    let c : TextCoalescer := { limits := lim }
    (c.calls ks).1.flatten ++ (c.calls ks).2.buf = (ks.map Call.text).flatten ∧
    (∀ chunk ∈ (c.calls ks).1, chunk ≠ []) ∧
    (c.calls (ks ++ [.flush])).2.buf = [] := by
  intro c
  refine ⟨calls_flatten c ks, calls_ne_nil c ks, ?_⟩
  rw [calls_append]
  exact flush_buf _

end SupertonicServer.Coalescer
