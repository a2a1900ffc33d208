import SupertonicServer.Coalescer.Waiting

/-!
# Resuming the scan

`push` scans the whole buffer again for every text it is given, although the call before left
no boundary in it. With more text behind it a mark keeps what stands in front of it, and its
new right neighbour can only bring the decimal protection: no mark that was passed over
qualifies later (`qualifies_append`). So the first scan of a push may begin where the old
buffer ends (`pushResumed_eq`). After a cut the left context of the marks is another one, and
the rest is scanned from its beginning, as before.
-/

namespace SupertonicServer.Coalescer

open Lib (cutAll cutPiece cutRest)

/-- The `for` loop of `_find_boundary`, begun at index `start`. -/
def scanFrom (lim : Limits) (start : Nat) (buf : List Char) : Option Nat :=
  (List.range' start (buf.length - start)).find? (qualifies lim buf)

/-- `_find_boundary` with its loop begun at index `start`. -/
def findBoundaryFrom (lim : Limits) (start : Nat) (buf : List Char) : Option Nat :=
  match scanFrom lim start buf with
  | some i => some (i + 1)
  | none => if lim.hardMaxChars < buf.length then some (forcedCut lim buf) else none

/-- `push` with its first scan resumed at the end of the old buffer. -/
def TextCoalescer.pushResumed (c : TextCoalescer) (text : List Char) :
    List Chunk × TextCoalescer :=
  let buf := c.buf ++ text
  match findBoundaryFrom c.limits c.buf.length buf with
  | none => ([], { c with buf := buf })
  | some cut =>
    let r := cutAll (findBoundary c.limits) isspace (cutRest isspace buf cut)
    (cutPiece isspace buf cut :: r.1, { c with buf := r.2 })

/-- A search that fails on the first `k` indices may begin at `k`. -/
theorem find?_range_from {p : Nat → Bool} {k n : Nat} (hk : k ≤ n) (h : ∀ i < k, p i = false) :
    (List.range n).find? p = (List.range' k (n - k)).find? p := by
  have hsplit : List.range n = List.range k ++ List.range' k (n - k) := by
    have happend := List.range'_append_1 (s := 0) (m := k) (n := n - k)
    rw [Nat.zero_add, Nat.add_sub_cancel' hk] at happend
    rw [List.range_eq_range', List.range_eq_range', happend]
  have hnone : (List.range k).find? p = none := by
    rw [List.find?_eq_none]
    intro i hi
    rw [h i (List.mem_range.mp hi)]
    simp
  rw [hsplit, List.find?_append, hnone, Option.none_or]

/-- No position of a buffer without a boundary qualifies with more text behind it. -/
theorem not_qualifies_append {lim : Limits} {buf text : List Char}
    (hfree : findBoundary lim buf = none) {i : Nat} (hi : i < buf.length) :
    qualifies lim (buf ++ text) i = false := by
  obtain ⟨hnone, -⟩ := findBoundary_none_iff.mp hfree
  rw [Bool.eq_false_iff]
  intro hq
  have hold := qualifies_append hi hq
  rw [scan_eq_none hnone i] at hold
  exact absurd hold (by simp)

/-- The scan resumed at the end of such a buffer finds what the whole scan finds. -/
theorem scanFrom_eq {lim : Limits} {buf : List Char} (hfree : findBoundary lim buf = none)
    (text : List Char) : scanFrom lim buf.length (buf ++ text) = scan lim (buf ++ text) := by
  have hle : buf.length ≤ (buf ++ text).length := by simp
  exact (find?_range_from hle fun i hi => not_qualifies_append hfree hi).symm

theorem findBoundaryFrom_eq {lim : Limits} {buf : List Char} (hfree : findBoundary lim buf = none)
    (text : List Char) :
    findBoundaryFrom lim buf.length (buf ++ text) = findBoundary lim (buf ++ text) := by
  have hscan := scanFrom_eq hfree text
  unfold findBoundaryFrom findBoundary
  cases h : scan lim (buf ++ text) with
  | none => rw [hscan.trans h]
  | some i => rw [hscan.trans h]

/-- From a buffer without a boundary the resumed push is the push. -/
theorem pushResumed_eq {c : TextCoalescer} (hfree : c.BoundaryFree) (text : List Char) :
    c.pushResumed text = c.push text := by
  unfold TextCoalescer.pushResumed TextCoalescer.push
  dsimp only
  rw [findBoundaryFrom_eq hfree]
  cases h : findBoundary c.limits (c.buf ++ text) with
  | none => rw [Lib.cutAll_none (findBoundary_inRange _) h]
  | some cut => rw [Lib.cutAll_some (findBoundary_inRange _) h]

/-- **Rescanning is redundant**: what a buffer without a boundary was scanned for in vain
stays in vain with any text behind it, and in every state that calls can reach the push that
resumes its scan returns the chunks and leaves the buffer of the push that does not. -/
theorem rescan_redundant (lim : Limits) :
    (∀ buf text : List Char, findBoundary lim buf = none →
      (∀ i < buf.length, qualifies lim (buf ++ text) i = false) ∧
      ∀ i, scan lim (buf ++ text) = some i → buf.length ≤ i) ∧
    ∀ (ks : List Call) (text : List Char),
      let c := (({ limits := lim } : TextCoalescer).calls ks).2
      c.pushResumed text = c.push text := by
  constructor
  · intro buf text hfree
    obtain ⟨hnone, -⟩ := findBoundary_none_iff.mp hfree
    exact ⟨fun i hi => not_qualifies_append hfree hi, fun i hi => scan_append_ge hnone hi⟩
  · intro ks text c
    exact pushResumed_eq (calls_boundaryFree (new_boundaryFree lim) ks) text

/-! ## Whole runs -/

/-- A sequence of calls with every push resumed. -/
def TextCoalescer.callsResumed (c : TextCoalescer) : List Call → List Chunk × TextCoalescer
  | [] => ([], c)
  | k :: ks =>
    let r := match k with
      | .push text => c.pushResumed text
      | .flush => c.flush
    let rest := r.2.callsResumed ks
    (r.1 ++ rest.1, rest.2)

/-- A coalescer that resumes its scans cannot be told from one that does not. -/
theorem callsResumed_eq {c : TextCoalescer} (hfree : c.BoundaryFree) (ks : List Call) :
    c.callsResumed ks = c.calls ks := by
  induction ks generalizing c with
  | nil => rfl
  | cons k ks ih =>
    have hcall : (match k with
        | .push text => c.pushResumed text
        | .flush => c.flush) = c.call k := by
      cases k with
      | push text => exact pushResumed_eq hfree text
      | flush => rfl
    unfold TextCoalescer.callsResumed TextCoalescer.calls
    dsimp only
    rw [hcall, ih (call_boundaryFree c k)]

end SupertonicServer.Coalescer
