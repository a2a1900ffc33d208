import Mathlib.Data.List.TakeWhile

/-!
# Readers, and lists between delimiters

A *reader* takes a value off the front of a text. `ReadsAs item text a follow` says that it takes
exactly `text`, as `a`, in front of every rest that `follow` allows; a printer and a reader
that belong together satisfy it for every printed value.

`readDelimited` reads a list up to a closing character, with a separator between the items and
blanks anywhere between the tokens. What it takes off a printed list are the items
(`readDelimited_printed`), for every fuel from the number of items on.
-/

namespace SupertonicServer.Lib

variable {α β : Type}

abbrev Reader (α : Type) := List Char → Option (α × List Char)

/-- `item` reads `text` as `a`, in front of every rest that `follow` allows. -/
def ReadsAs (item : Reader α) (text : List Char) (a : α) (follow : List Char → Prop) : Prop :=
  ∀ rest, follow rest → item (text ++ rest) = some (a, rest)

/-- What can be tested of every element of a given list. -/
theorem forall_mem_of_all {P : α → Prop} [DecidablePred P] {as : List α}
    (h : as.all (fun a => decide (P a)) = true) : ∀ a ∈ as, P a := by
  simpa using h

/-- The rest does not start with a character that `more` holds of. -/
def StopsAt (more : Char → Bool) (rest : List Char) : Prop :=
  ∀ c, rest.head? = some c → more c = false

theorem stopsAt_nil (more : Char → Bool) : StopsAt more [] := by
  intro c hc
  exact absurd hc (by simp)

theorem stopsAt_cons {more : Char → Bool} {c : Char} {rest : List Char} :
    StopsAt more (c :: rest) ↔ more c = false := by
  simp [StopsAt]

/-- A run of characters in front of a rest that does not go on with them. -/
theorem takeWhile_run {more : Char → Bool} {run rest : List Char}
    (hrun : ∀ c ∈ run, more c = true) (hrest : StopsAt more rest) :
    (run ++ rest).takeWhile more = run ∧ (run ++ rest).dropWhile more = rest := by
  rw [List.takeWhile_append_of_pos hrun, List.dropWhile_append_of_pos hrun]
  cases rest with
  | nil => simp
  | cons c rest =>
    have hc := stopsAt_cons.mp hrest
    simp [hc]

/-! ## Lists between delimiters -/

/-- The blanks at the front left out. -/
def skip (blank : Char → Bool) (s : List Char) : List Char := s.dropWhile blank

variable {blank : Char → Bool} {sep close : Char} {item : Reader α}

theorem skip_of_stopsAt {s : List Char} (h : StopsAt blank s) : skip blank s = s := by
  have hrun : ∀ c ∈ ([] : List Char), blank c = true := by simp
  exact (takeWhile_run hrun h).2

theorem skip_run {run s : List Char} (hrun : ∀ c ∈ run, blank c = true) (h : StopsAt blank s) :
    skip blank (run ++ s) = s :=
  (takeWhile_run hrun h).2

/-- One or more items, `sep` between them, up to `close`. -/
def readItems (blank : Char → Bool) (sep close : Char) (item : Reader α) : Nat → Reader (List α)
  | 0, _ => none
  | n + 1, s =>
    match item s with
    | none => none
    | some (a, rest) =>
      match skip blank rest with
      | [] => none
      | c :: rest =>
        if c = close then some ([a], rest)
        else if c = sep then
          (readItems blank sep close item n (skip blank rest)).map fun r => (a :: r.1, r.2)
        else none

/-- Any number of items, `sep` between them, up to `close`. -/
def readDelimited (blank : Char → Bool) (sep close : Char) (item : Reader α) (n : Nat) :
    Reader (List α) := fun s =>
  match skip blank s with
  | [] => none
  | c :: rest =>
    if c = close then some ([], rest) else readItems blank sep close item n (c :: rest)

/-- What a list prints as: `gap` behind each separator, `close` behind the last item. -/
def printed (print : α → List Char) (sep close : Char) (gap : List Char) : List α → List Char
  | [] => [close]
  | [a] => print a ++ [close]
  | a :: b :: as => print a ++ sep :: gap ++ printed print sep close gap (b :: as)

variable {print : α → List Char} {gap : List Char} {follow : List Char → Prop}

/-- An item is printed as itself and something behind it. -/
theorem printed_cons (print : α → List Char) (sep close : Char) (gap : List Char) (a : α)
    (as : List α) : ∃ tail, printed print sep close gap (a :: as) = print a ++ tail ∧
      (tail.head? = some sep ∨ tail.head? = some close) := by
  cases as with
  | nil => exact ⟨_, rfl, Or.inr rfl⟩
  | cons b as =>
    refine ⟨sep :: gap ++ printed print sep close gap (b :: as), ?_, Or.inl rfl⟩
    simp [printed]

/-- A property of the separator, the closing character, the gap and every character of the
items. -/
theorem forall_mem_printed {P : Char → Prop} (hsep : P sep) (hclose : P close)
    (hgap : ∀ c ∈ gap, P c) {as : List α} (has : ∀ a ∈ as, ∀ c ∈ print a, P c) :
    ∀ c ∈ printed print sep close gap as, P c := by
  induction as with
  | nil =>
    intro c hc
    rw [List.mem_singleton.mp hc]
    exact hclose
  | cons a as ih =>
    rw [List.forall_mem_cons] at has
    intro c hc
    cases as with
    | nil =>
      rcases List.mem_append.mp hc with hc | hc
      · exact has.1 c hc
      · rw [List.mem_singleton.mp hc]
        exact hclose
    | cons b as =>
      rw [printed] at hc
      rcases List.mem_append.mp hc with hc | hc
      · rcases List.mem_append.mp hc with hc | hc
        · exact has.1 c hc
        · rcases List.mem_cons.mp hc with rfl | hc
          · exact hsep
          · exact hgap c hc
      · exact ih has.2 c hc

/-- A list has fewer items than its printed form has characters. -/
theorem length_lt_printed {as : List α} (hsome : ∀ a ∈ as, print a ≠ []) :
    as.length < (printed print sep close gap as).length := by
  induction as with
  | nil => simp [printed]
  | cons a as ih =>
    rw [List.forall_mem_cons] at hsome
    have hpos : 0 < (print a).length := List.length_pos_iff.mpr hsome.1
    have hrest := ih hsome.2
    cases as with
    | nil =>
      simp only [printed, List.length_append, List.length_cons, List.length_nil]
      omega
    | cons b as =>
      simp only [printed, List.length_append, List.length_cons] at hrest ⊢
      omega

/-- An item is no longer than the list it is printed in. -/
theorem length_print_lt {a : α} {as : List α} (h : a ∈ as) :
    (print a).length < (printed print sep close gap as).length := by
  induction as with
  | nil => exact absurd h List.not_mem_nil
  | cons b as ih =>
    cases as with
    | nil =>
      rw [List.mem_singleton.mp h]
      simp [printed]
    | cons c as =>
      simp only [printed, List.length_append, List.length_cons]
      rcases List.mem_cons.mp h with rfl | h
      · omega
      · have := ih h
        omega

theorem readItems_printed (hsep : blank sep = false) (hclose : blank close = false)
    (hne : sep ≠ close) (hgap : ∀ c ∈ gap, blank c = true)
    (hfollow : ∀ c rest, c = sep ∨ c = close → follow (c :: rest))
    {as : List α} (has : as ≠ []) (hitem : ∀ a ∈ as, ReadsAs item (print a) a follow)
    (hstart : ∀ a ∈ as, print a ≠ [] ∧ StopsAt blank (print a))
    {n : Nat} (hn : as.length ≤ n) (rest : List Char) :
    readItems blank sep close item n (printed print sep close gap as ++ rest) =
      some (as, rest) := by
  induction as generalizing n with
  | nil => exact absurd rfl has
  | cons a as ih =>
    obtain ⟨n, rfl⟩ : ∃ k, n = k + 1 := ⟨n - 1, by simp only [List.length_cons] at hn; omega⟩
    have hread := hitem a List.mem_cons_self
    cases as with
    | nil =>
      have hgo := hread (close :: rest) (hfollow close rest (Or.inr rfl))
      have htext : printed print sep close gap [a] ++ rest = print a ++ close :: rest := by
        simp [printed]
      rw [htext, readItems, hgo]
      dsimp only
      rw [skip_of_stopsAt (stopsAt_cons.mpr hclose)]
      simp
    | cons b as =>
      have hgo := hread (sep :: (gap ++ printed print sep close gap (b :: as) ++ rest))
        (hfollow sep _ (Or.inl rfl))
      have htext : printed print sep close gap (a :: b :: as) ++ rest =
          print a ++ sep :: (gap ++ printed print sep close gap (b :: as) ++ rest) := by
        simp [printed]
      -- behind the separator the next item begins with its first character
      have hnext : StopsAt blank (printed print sep close gap (b :: as) ++ rest) := by
        obtain ⟨tail, htail, -⟩ := printed_cons print sep close gap b as
        obtain ⟨hsome, hstop⟩ := hstart b (by simp)
        rw [htail]
        cases hb : print b with
        | nil => exact absurd hb hsome
        | cons c text =>
          rw [hb] at hstop
          exact stopsAt_cons.mpr (stopsAt_cons.mp hstop)
      rw [htext, readItems, hgo]
      dsimp only
      rw [skip_of_stopsAt (stopsAt_cons.mpr hsep)]
      dsimp only
      rw [if_neg hne, if_pos rfl, List.append_assoc, skip_run hgap hnext,
        ih (by simp) (fun x hx => hitem x (List.mem_cons_of_mem a hx))
          (fun x hx => hstart x (List.mem_cons_of_mem a hx))
          (by simp only [List.length_cons] at hn ⊢; omega)]
      rfl

/-- **A printed list reads back**, when its items do and none of them starts with a blank or
with the closing character. The length of its text is fuel enough, and an item that has to be
read is shorter than that. -/
theorem readDelimited_printed (hsep : blank sep = false) (hclose : blank close = false)
    (hne : sep ≠ close) (hgap : ∀ c ∈ gap, blank c = true)
    (hfollow : ∀ c rest, c = sep ∨ c = close → follow (c :: rest))
    {as : List α} {n : Nat} (hn : (printed print sep close gap as).length ≤ n)
    (hitem : ∀ a ∈ as, (print a).length < n → ReadsAs item (print a) a follow)
    (hstart : ∀ a ∈ as, ∃ c text, print a = c :: text ∧ blank c = false ∧ c ≠ close)
    (rest : List Char) :
    readDelimited blank sep close item n (printed print sep close gap as ++ rest) =
      some (as, rest) := by
  have hstart' : ∀ a ∈ as, print a ≠ [] ∧ StopsAt blank (print a) := by
    intro a ha
    obtain ⟨c, text, hprint, hblank, -⟩ := hstart a ha
    rw [hprint]
    exact ⟨by simp, stopsAt_cons.mpr hblank⟩
  have hfuel : as.length ≤ n := by
    have hlt : as.length < (printed print sep close gap as).length :=
      length_lt_printed fun a ha => (hstart' a ha).1
    omega
  have hitem' : ∀ a ∈ as, ReadsAs item (print a) a follow :=
    fun a ha => hitem a ha (Nat.lt_of_lt_of_le (length_print_lt ha) hn)
  cases as with
  | nil =>
    show readDelimited blank sep close item n (close :: rest) = _
    rw [readDelimited, skip_of_stopsAt (stopsAt_cons.mpr hclose)]
    dsimp only
    rw [if_pos rfl]
  | cons a as =>
    have hread := readItems_printed hsep hclose hne hgap hfollow (by simp) hitem' hstart' hfuel
      rest
    obtain ⟨c, text, hprint, hblank, hc⟩ := hstart a List.mem_cons_self
    obtain ⟨tail, htail, -⟩ := printed_cons print sep close gap a as
    rw [htail, hprint, List.cons_append, List.cons_append] at hread ⊢
    rw [readDelimited, skip_of_stopsAt (stopsAt_cons.mpr hblank)]
    dsimp only
    rw [if_neg hc]
    exact hread

/-! ## What is read was there -/

/-- Every item that is read, was read off some text. -/
theorem readItems_mem {n : Nat} {s rest : List Char} {as : List α}
    (h : readItems blank sep close item n s = some (as, rest)) :
    ∀ a ∈ as, ∃ s rest, item s = some (a, rest) := by
  induction n generalizing s as rest with
  | zero => exact absurd h (by simp [readItems])
  | succ n ih =>
    rw [readItems] at h
    split at h
    next => exact absurd h (by simp)
    next a rest₁ hitem =>
      split at h
      next => exact absurd h (by simp)
      next c rest₂ _ =>
        split at h
        next =>
          obtain ⟨rfl, -⟩ := Prod.mk.inj (Option.some.inj h)
          intro b hb
          rw [List.mem_singleton.mp hb]
          exact ⟨s, rest₁, hitem⟩
        next =>
          split at h
          next =>
            obtain ⟨r, hr, hpair⟩ := Option.map_eq_some_iff.mp h
            obtain ⟨rfl, -⟩ := Prod.mk.inj hpair
            intro b hb
            rcases List.mem_cons.mp hb with rfl | hb
            · exact ⟨s, rest₁, hitem⟩
            · exact ih hr b hb
          next => exact absurd h (by simp)

theorem readDelimited_mem {n : Nat} {s rest : List Char} {as : List α}
    (h : readDelimited blank sep close item n s = some (as, rest)) :
    ∀ a ∈ as, ∃ s rest, item s = some (a, rest) := by
  unfold readDelimited at h
  split at h
  next => exact absurd h (by simp)
  next c rest₁ _ =>
    split at h
    next =>
      obtain ⟨rfl, -⟩ := Prod.mk.inj (Option.some.inj h)
      intro a ha
      exact absurd ha List.not_mem_nil
    next => exact readItems_mem h

end SupertonicServer.Lib
