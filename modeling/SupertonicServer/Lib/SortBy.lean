import Mathlib.Data.List.Pairwise
import Mathlib.Data.List.Sort

/-!
# Sorting by a key

A stable sort by a key, over any type of elements and any linear order of keys. When no two
elements have the same key, the sorted list depends on the elements alone and not on the
order they came in (`sortBy_eq_of_perm`), and it increases strictly, which it does in that
case only (`sortBy_increasing_iff`).
-/

namespace SupertonicServer.Lib

variable {α κ : Type} {key : α → κ}

/-- Where keys are distinct an element is known by its key. -/
theorem eq_of_distinct {xs : List α} (hdistinct : xs.Pairwise fun x y => key x ≠ key y) {x y : α}
    (hx : x ∈ xs) (hy : y ∈ xs) (hkey : key x = key y) : x = y := by
  have hsymm : Std.Symm fun x y : α => key x ≠ key y := ⟨fun _ _ h => Ne.symm h⟩
  by_contra hne
  exact hdistinct.forall hx hy hne hkey

variable [LinearOrder κ]

/-- Elements in the order of their keys; equal keys keep the order they came in. -/
def sortBy (key : α → κ) (xs : List α) : List α := xs.insertionSort fun x y => key x ≤ key y

theorem sortBy_perm (key : α → κ) (xs : List α) : (sortBy key xs).Perm xs :=
  List.perm_insertionSort _ xs

theorem mem_sortBy {xs : List α} {x : α} : x ∈ sortBy key xs ↔ x ∈ xs :=
  (sortBy_perm key xs).mem_iff

/-- The keys ascend. -/
theorem sortBy_ascending (key : α → κ) (xs : List α) :
    (sortBy key xs).Pairwise fun x y => key x ≤ key y := by
  have htotal : Std.Total fun x y : α => key x ≤ key y := ⟨fun x y => le_total (key x) (key y)⟩
  have htrans : IsTrans α fun x y => key x ≤ key y := ⟨fun _ _ _ hxy hyz => le_trans hxy hyz⟩
  exact List.pairwise_insertionSort _ xs

/-- They ascend strictly exactly when no two elements have the same key. -/
theorem sortBy_increasing_iff {xs : List α} :
    ((sortBy key xs).Pairwise fun x y => key x < key y) ↔
      xs.Pairwise fun x y => key x ≠ key y := by
  have hsymm : ∀ {x y : α}, key x ≠ key y → key y ≠ key x := fun h => Ne.symm h
  rw [← (sortBy_perm key xs).pairwise_iff hsymm]
  constructor
  · intro h
    exact h.imp fun hlt => ne_of_lt hlt
  · intro h
    exact ((sortBy_ascending key xs).and h).imp fun hxy => lt_of_le_of_ne hxy.1 hxy.2

/-- With no two elements of one key, any order of the elements sorts to the same list. -/
theorem sortBy_eq_of_perm {xs ys : List α} (hdistinct : xs.Pairwise fun x y => key x ≠ key y)
    (hperm : ys.Perm xs) : sortBy key ys = sortBy key xs := by
  have hsame : (sortBy key ys).Perm (sortBy key xs) :=
    (sortBy_perm key ys).trans (hperm.trans (sortBy_perm key xs).symm)
  refine hsame.eq_of_pairwise ?_ (sortBy_ascending key ys) (sortBy_ascending key xs)
  intro x y hx hy hxy hyx
  exact eq_of_distinct hdistinct (hperm.mem_iff.mp (mem_sortBy.mp hx)) (mem_sortBy.mp hy)
    (le_antisymm hxy hyx)

end SupertonicServer.Lib
