import Mathlib.Data.List.TakeWhile

/-!
# Cutting a buffer until no cut is found

The loop of a stream splitter, over any alphabet: `find` looks for a cut in the buffer, the
part before the cut is emitted together with the run of `carry` elements after it, and the
rest is searched again. `cutAll` is that loop with the buffer length as fuel; `cutAll_eq` is
the equation of the unbounded `while True`, which holds because an in-range cut always
consumes an element (`CutInRange`).

What holds of the loop whatever `find` is: the pieces and the rest are the buffer
(`cutAll_flatten`). What needs in-range cuts: every piece is nonempty, and the rest has no
cut left (`cutAll_rest`). `cutStates` lists the buffers the loop cut, each with the text
already consumed in front of it.
-/

namespace SupertonicServer.Lib

variable {α : Type} (find : List α → Option Nat) (carry : α → Bool)

/-- The piece emitted by a cut at `k`: the prefix and the carried run behind it. -/
def cutPiece (buf : List α) (k : Nat) : List α :=
  buf.take k ++ (buf.drop k).takeWhile carry

/-- What a cut at `k` leaves in the buffer. -/
def cutRest (buf : List α) (k : Nat) : List α :=
  (buf.drop k).dropWhile carry

/-- The cut loop with fuel: the pieces emitted and the buffer left. -/
def cutLoop : Nat → List α → List (List α) × List α
  | 0, buf => ([], buf)
  | fuel + 1, buf =>
    match find buf with
    | none => ([], buf)
    | some k =>
      let r := cutLoop fuel (cutRest carry buf k)
      (cutPiece carry buf k :: r.1, r.2)

/-- The whole loop: one unit of fuel for every element of the buffer. -/
def cutAll (buf : List α) : List (List α) × List α :=
  cutLoop find carry buf.length buf

/-- Every cut lies between `1` and the buffer length. -/
def CutInRange : Prop :=
  ∀ buf k, find buf = some k → 1 ≤ k ∧ k ≤ buf.length

variable {find carry}

/-- A piece and what it leaves are the buffer. -/
theorem cutPiece_append_rest (buf : List α) (k : Nat) :
    cutPiece carry buf k ++ cutRest carry buf k = buf := by
  unfold cutPiece cutRest
  rw [List.append_assoc, List.takeWhile_append_dropWhile, List.take_append_drop]

theorem cutPiece_ne_nil {buf : List α} {k : Nat} (h1 : 1 ≤ k) (h2 : k ≤ buf.length) :
    cutPiece carry buf k ≠ [] := by
  intro h
  have hlen := congrArg List.length h
  simp only [cutPiece, List.length_append, List.length_take, List.length_nil] at hlen
  omega

theorem cutRest_length_lt (carry : α → Bool) {buf : List α} {k : Nat} (h1 : 1 ≤ k)
    (h2 : k ≤ buf.length) : (cutRest carry buf k).length < buf.length := by
  have hd : (cutRest carry buf k).length ≤ (buf.drop k).length :=
    (List.dropWhile_suffix _).length_le
  rw [List.length_drop] at hd
  omega

/-- What a cut leaves does not begin with a carried element. -/
theorem cutRest_head (buf : List α) (k : Nat) :
    ((cutRest carry buf k).head?).any carry = false := by
  unfold cutRest
  have h := List.head?_dropWhile_not carry (buf.drop k)
  split at h
  next x hx => rw [hx]; simpa using h
  next hx => rw [hx]; rfl

/-- The pieces followed by the rest are the buffer, whatever `find` does. -/
theorem cutLoop_flatten : ∀ (fuel : Nat) (buf : List α),
    (cutLoop find carry fuel buf).1.flatten ++ (cutLoop find carry fuel buf).2 = buf
  | 0, buf => rfl
  | fuel + 1, buf => by
    unfold cutLoop
    split
    next => rfl
    next k hk =>
      have ih := cutLoop_flatten fuel (cutRest carry buf k)
      rw [List.flatten_cons, List.append_assoc, ih, cutPiece_append_rest]

theorem cutAll_flatten (buf : List α) :
    (cutAll find carry buf).1.flatten ++ (cutAll find carry buf).2 = buf :=
  cutLoop_flatten buf.length buf

theorem CutInRange.nil (hf : CutInRange find) : find [] = none := by
  cases h : find [] with
  | none => rfl
  | some k =>
    have := hf [] k h
    simp only [List.length_nil] at this
    omega

theorem cutLoop_nil (hf : CutInRange find) (fuel : Nat) :
    cutLoop find carry fuel [] = ([], []) := by
  cases fuel with
  | zero => rfl
  | succ n => rw [cutLoop, hf.nil]

/-- Any two fuels that cover the buffer give the same result. -/
theorem cutLoop_fuel (hf : CutInRange find) : ∀ (n m : Nat) (buf : List α),
    buf.length ≤ n → buf.length ≤ m →
      cutLoop find carry n buf = cutLoop find carry m buf := by
  intro n
  induction n with
  | zero =>
    intro m buf hn _
    obtain rfl : buf = [] := List.eq_nil_of_length_eq_zero (by omega)
    rw [cutLoop_nil hf, cutLoop_nil hf]
  | succ n ih =>
    intro m buf hn hm
    cases m with
    | zero =>
      obtain rfl : buf = [] := List.eq_nil_of_length_eq_zero (by omega)
      rw [cutLoop_nil hf, cutLoop_nil hf]
    | succ m =>
      unfold cutLoop
      split
      next => rfl
      next k hk =>
        -- the cut consumed an element, so both fuels still cover the rest
        obtain ⟨h1, h2⟩ := hf buf k hk
        have hlt := cutRest_length_lt carry h1 h2
        rw [ih m (cutRest carry buf k) (by omega) (by omega)]

/-- The equation of the `while True` loop. -/
theorem cutAll_eq (hf : CutInRange find) (buf : List α) :
    cutAll find carry buf =
      match find buf with
      | none => ([], buf)
      | some k =>
        (cutPiece carry buf k :: (cutAll find carry (cutRest carry buf k)).1,
          (cutAll find carry (cutRest carry buf k)).2) := by
  -- one spare unit of fuel pays for the first cut
  have hfuel : cutAll find carry buf = cutLoop find carry (buf.length + 1) buf :=
    cutLoop_fuel hf _ _ buf (Nat.le_refl _) (Nat.le_succ _)
  rw [hfuel, cutLoop]
  split
  next => rfl
  next k hk =>
    obtain ⟨h1, h2⟩ := hf buf k hk
    have hlt := cutRest_length_lt carry h1 h2
    rw [cutLoop_fuel hf buf.length _ _ (by omega) (Nat.le_refl _)]
    rfl

theorem cutAll_none (hf : CutInRange find) {buf : List α} (h : find buf = none) :
    cutAll find carry buf = ([], buf) := by
  rw [cutAll_eq hf, h]

theorem cutAll_some (hf : CutInRange find) {buf : List α} {k : Nat} (h : find buf = some k) :
    cutAll find carry buf =
      (cutPiece carry buf k :: (cutAll find carry (cutRest carry buf k)).1,
        (cutAll find carry (cutRest carry buf k)).2) := by
  rw [cutAll_eq hf, h]

/-- Induction along the loop: a buffer without a cut, or a cut and the rest of it. -/
theorem cutAll_induction (hf : CutInRange find) (carry : α → Bool) {motive : List α → Prop}
    (stop : ∀ buf, find buf = none → motive buf)
    (cut : ∀ buf k, find buf = some k → motive (cutRest carry buf k) → motive buf) :
    ∀ buf, motive buf := by
  -- on a bound for the length: what a cut leaves is shorter than what it was made in
  have key : ∀ (n : Nat) (buf : List α), buf.length ≤ n → motive buf := by
    intro n
    induction n with
    | zero =>
      intro buf hn
      cases h : find buf with
      | none => exact stop buf h
      | some k =>
        have := hf buf k h
        omega
    | succ n ih =>
      intro buf hn
      cases h : find buf with
      | none => exact stop buf h
      | some k =>
        obtain ⟨h1, h2⟩ := hf buf k h
        have hlt := cutRest_length_lt carry h1 h2
        exact cut buf k h (ih _ (by omega))
  exact fun buf => key buf.length buf (Nat.le_refl _)

/-- After the loop the buffer has no cut left. -/
theorem cutAll_rest (hf : CutInRange find) (buf : List α) :
    find (cutAll find carry buf).2 = none := by
  induction buf using cutAll_induction hf carry with
  | stop buf h => rw [cutAll_none hf h]; exact h
  | cut buf k h ih => rw [cutAll_some hf h]; exact ih

theorem cutAll_ne_nil (hf : CutInRange find) (buf : List α) :
    ∀ piece ∈ (cutAll find carry buf).1, piece ≠ [] := by
  induction buf using cutAll_induction hf carry with
  | stop buf h => rw [cutAll_none hf h]; simp
  | cut buf k h ih =>
    rw [cutAll_some hf h]
    intro piece hp
    rcases List.mem_cons.mp hp with rfl | hp
    · exact cutPiece_ne_nil (hf buf k h).1 (hf buf k h).2
    · exact ih piece hp

/-- The run in front of an element that ends it does not reach past that element. -/
theorem takeWhile_length_le {p : α → Bool} {x : α} (hx : p x = false) :
    ∀ (xs ys : List α), ((xs ++ x :: ys).takeWhile p).length ≤ xs.length
  | [], ys => by simp [hx]
  | y :: xs, ys => by
    rw [List.cons_append, List.takeWhile_cons]
    split
    next => exact Nat.succ_le_succ (takeWhile_length_le hx xs ys)
    next => exact Nat.zero_le _

/-- Behind a prefix that ends in an element that is not carried, a cut emits that prefix and
the carried run after it exactly when it falls into the run. -/
theorem cutPiece_append_iff {init : List α} {x : α} {later : List α} {k : Nat}
    (hx : carry x = false) :
    cutPiece carry ((init ++ [x]) ++ later) k = (init ++ [x]) ++ later.takeWhile carry ↔
      init.length < k ∧ ∀ y ∈ later.take (k - (init.length + 1)), carry y = true := by
  have hlen : (init ++ [x]).length = init.length + 1 := by simp
  rcases Nat.lt_or_ge init.length k with hk | hk
  · -- the cut takes the prefix and some of what follows
    obtain ⟨m, rfl⟩ : ∃ m, k = (init ++ [x]).length + m := ⟨k - (init.length + 1), by omega⟩
    have hm : (init ++ [x]).length + m - (init.length + 1) = m := by omega
    rw [cutPiece, List.take_length_add_append, List.drop_length_add_append, List.append_assoc,
      List.append_cancel_left_eq, hm]
    constructor
    · intro heq
      refine ⟨hk, ?_⟩
      intro y hy
      have hmem : y ∈ later.takeWhile carry := heq ▸ List.mem_append_left _ hy
      exact List.mem_takeWhile_imp hmem
    · intro hrun
      rw [← List.takeWhile_append_of_pos hrun.2, List.take_append_drop]
  · -- the cut falls short of `x`, and the carried run stops there
    constructor
    · intro heq
      have hle := congrArg List.length heq
      have hdrop : ((init ++ [x]) ++ later).drop k = init.drop k ++ x :: later := by
        rw [List.append_assoc, List.drop_append_of_le_length hk]
        rfl
      have hrun := takeWhile_length_le (p := carry) hx (init.drop k) later
      rw [cutPiece, hdrop] at hle
      simp only [List.length_append, List.length_take, List.length_drop,
        List.length_singleton] at hle hrun
      omega
    · intro hrun
      omega

/-- In a buffer that does not begin with a carried element nothing begins with one: neither
a piece nor the rest. -/
theorem cutAll_head (hf : CutInRange find) (buf : List α)
    (h : (buf.head?).any carry = false) :
    (∀ piece ∈ (cutAll find carry buf).1, (piece.head?).any carry = false) ∧
    ((cutAll find carry buf).2.head?).any carry = false := by
  induction buf using cutAll_induction hf carry with
  | stop buf hnone =>
    rw [cutAll_none hf hnone]
    exact ⟨fun piece hp => absurd hp List.not_mem_nil, h⟩
  | cut buf k hk ih =>
    obtain ⟨h1, h2⟩ := hf buf k hk
    have hpiece : (cutPiece carry buf k).head? = buf.head? := by
      cases buf with
      | nil => simp only [List.length_nil] at h2; omega
      | cons y ys =>
        obtain ⟨m, rfl⟩ : ∃ m, k = m + 1 := ⟨k - 1, by omega⟩
        rfl
    obtain ⟨hps, hrest⟩ := ih (cutRest_head buf k)
    rw [cutAll_some hf hk]
    refine ⟨?_, hrest⟩
    intro piece hp
    rcases List.mem_cons.mp hp with rfl | hp
    · rw [hpiece]
      exact h
    · exact hps piece hp

/-! ## The buffers that were cut -/

variable (find carry)

/-- The buffers the loop cut, in order: what was consumed in front of each, the buffer, and
the cut. `before` is what had been consumed when the loop began. -/
def cutStates : Nat → List α → List α → List (List α × List α × Nat)
  | 0, _, _ => []
  | fuel + 1, before, buf =>
    match find buf with
    | none => []
    | some k =>
      (before, buf, k) ::
        cutStates fuel (before ++ cutPiece carry buf k) (cutRest carry buf k)

variable {find carry}

/-- Every piece comes from one of the listed cuts, in order. -/
theorem cutStates_pieces : ∀ (fuel : Nat) (before buf : List α),
    (cutStates find carry fuel before buf).map (fun s => cutPiece carry s.2.1 s.2.2)
      = (cutLoop find carry fuel buf).1
  | 0, _, _ => rfl
  | fuel + 1, before, buf => by
    unfold cutStates cutLoop
    split
    next => rfl
    next k hk =>
      rw [List.map_cons, cutStates_pieces fuel]

/-- A listed buffer was cut where `find` says, and the text in front of it and the buffer
are all the text there was. -/
theorem cutStates_spec : ∀ (fuel : Nat) (before buf : List α),
    ∀ s ∈ cutStates find carry fuel before buf,
      find s.2.1 = some s.2.2 ∧ s.1 ++ s.2.1 = before ++ buf
  | 0, _, _, s, hs => absurd hs (List.not_mem_nil)
  | fuel + 1, before, buf, s, hs => by
    unfold cutStates at hs
    split at hs
    next => exact absurd hs (List.not_mem_nil)
    next k hk =>
      rcases List.mem_cons.mp hs with rfl | hs
      · exact ⟨hk, rfl⟩
      · obtain ⟨h1, h2⟩ := cutStates_spec fuel _ _ s hs
        rw [List.append_assoc, cutPiece_append_rest] at h2
        exact ⟨h1, h2⟩

/-- A listed buffer is the end of the buffer the loop began with. -/
theorem cutStates_suffix : ∀ (fuel : Nat) (before buf : List α),
    ∀ s ∈ cutStates find carry fuel before buf, s.2.1 <:+ buf
  | 0, _, _, s, hs => absurd hs (List.not_mem_nil)
  | fuel + 1, before, buf, s, hs => by
    unfold cutStates at hs
    split at hs
    next => exact absurd hs (List.not_mem_nil)
    next k hk =>
      rcases List.mem_cons.mp hs with rfl | hs
      · exact List.suffix_refl _
      · have hrest := cutStates_suffix fuel _ _ s hs
        exact hrest.trans ⟨cutPiece carry buf k, cutPiece_append_rest buf k⟩

end SupertonicServer.Lib
