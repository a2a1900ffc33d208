import Mathlib.Logic.Function.Basic
import Mathlib.Data.List.Basic

/-!
# Tables that remember

A memo table keeps for each key the first value that was found for it. A request asks for a
key, and `fetch` is what looking it up would give at that moment: the lookup is made only if
the table has nothing, and one that fails leaves nothing behind.

`answer_after` says what a request gets after any others: the first value ever found for its
key. So a table is stable under changes of what is looked up, and it is exact where nothing
changes (`answers_eq`).
-/

namespace SupertonicServer.Lib

variable {κ ν ε : Type} [DecidableEq κ]

abbrev Memo (κ ν : Type) := κ → Option ν

/-- Nothing has been found. -/
def Memo.empty (κ ν : Type) : Memo κ ν := fun _ => none

/-- The answer to a request, and the table afterwards. -/
def Memo.get (m : Memo κ ν) (k : κ) (fetch : Except ε ν) : Except ε ν × Memo κ ν :=
  match m k with
  | some v => (.ok v, m)
  | none =>
    match fetch with
    | .ok v => (.ok v, Function.update m k (some v))
    | .error e => (.error e, m)

/-- What looking up found. -/
def found : Except ε ν → Option ν
  | .ok v => some v
  | .error _ => none

/-- The table after some requests. -/
def Memo.after (m : Memo κ ν) (requests : List (κ × Except ε ν)) : Memo κ ν :=
  requests.foldl (fun m r => (m.get r.1 r.2).2) m

/-- Their answers. -/
def Memo.answers (m : Memo κ ν) : List (κ × Except ε ν) → List (Except ε ν)
  | [] => []
  | r :: requests => (m.get r.1 r.2).1 :: Memo.answers (m.get r.1 r.2).2 requests

/-- The first value that was found for `k`. -/
def firstFound (k : κ) (requests : List (κ × Except ε ν)) : Option ν :=
  requests.findSome? fun r => if r.1 = k then found r.2 else none

/-- A request sets its key, if the table has nothing for it. -/
theorem get_table (m : Memo κ ν) (k d : κ) (fetch : Except ε ν) :
    (m.get k fetch).2 d = (m d).or (if k = d then found fetch else none) := by
  unfold Memo.get
  cases hk : m k with
  | some v =>
    show m d = _
    by_cases hd : k = d
    · rw [← hd, hk]
      rfl
    · rw [if_neg hd, Option.or_none]
  | none =>
    cases fetch with
    | error e => simp [found]
    | ok v =>
      by_cases hd : k = d
      · rw [← hd, hk, if_pos rfl]
        exact Function.update_self ..
      · rw [if_neg hd, Option.or_none]
        exact Function.update_of_ne (Ne.symm hd) ..

/-- What is answered: what the table has, or else what looking up gives. -/
theorem get_answer (m : Memo κ ν) (k : κ) (fetch : Except ε ν) :
    (m.get k fetch).1 = (m k).elim fetch .ok := by
  unfold Memo.get
  cases m k with
  | some v => rfl
  | none => cases fetch <;> rfl

/-- The table holds the first values found. -/
theorem after_table (m : Memo κ ν) (requests : List (κ × Except ε ν)) (k : κ) :
    m.after requests k = (m k).or (firstFound k requests) := by
  induction requests generalizing m with
  | nil => exact (Option.or_none).symm
  | cons r requests ih =>
    have hfirst : firstFound k (r :: requests) =
        (if r.1 = k then found r.2 else none).or (firstFound k requests) := by
      rw [firstFound, List.findSome?_cons]
      cases (if r.1 = k then found r.2 else none) <;> rfl
    rw [Memo.after, List.foldl_cons, ← Memo.after, ih, get_table, Option.or_assoc, hfirst]

/-- **After any requests** a key is answered with the first value ever found for it. -/
theorem answer_after (m : Memo κ ν) (requests : List (κ × Except ε ν)) (k : κ)
    (fetch : Except ε ν) :
    ((m.after requests).get k fetch).1 =
      ((m k).or (firstFound k requests)).elim fetch .ok := by
  rw [get_answer, after_table]

/-- Where looking up a key always gives the same, and the table agrees, it makes no difference
that there is a table. -/
theorem answers_eq {f : κ → Except ε ν} {m : Memo κ ν} (hm : ∀ k v, m k = some v → f k = .ok v)
    {requests : List (κ × Except ε ν)} (hf : ∀ r ∈ requests, r.2 = f r.1) :
    m.answers requests = requests.map Prod.snd := by
  induction requests generalizing m with
  | nil => rfl
  | cons r requests ih =>
    rw [List.forall_mem_cons] at hf
    have hhead : (m.get r.1 r.2).1 = r.2 := by
      rw [get_answer]
      cases hk : m r.1 with
      | none => rfl
      | some v => exact ((hf.1.trans (hm r.1 v hk))).symm
    have htable : ∀ k v, (m.get r.1 r.2).2 k = some v → f k = .ok v := by
      intro k v hv
      rw [get_table, Option.or_eq_some_iff] at hv
      rcases hv with hv | ⟨-, hv⟩
      · exact hm k v hv
      · by_cases hk : r.1 = k
        · rw [if_pos hk] at hv
          rw [← hk, ← hf.1]
          cases hr : r.2 with
          | error e => rw [hr] at hv; exact absurd hv (by simp [found])
          | ok v' =>
            rw [hr] at hv
            rw [Option.some.inj hv]
        · rw [if_neg hk] at hv
          exact absurd hv (by simp)
    rw [Memo.answers, List.map_cons, hhead, ih htable hf.2]

end SupertonicServer.Lib
