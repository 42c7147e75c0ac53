import Mathlib.Data.List.Sort
import Mathlib.Order.Lattice

/-! # The smallest elements of a list

The `k` smallest elements in order, and how they change when an element is added: it is put
in its place among them, and what is then one too many at the end is dropped.
-/

namespace CompOrg

variable {α : Type*} [LinearOrder α]

def smallest (k : Nat) (xs : List α) : List α := (xs.insertionSort (· ≤ ·)).take k

section Smallest

variable {k : Nat} {xs ys : List α} {x z : α}

theorem length_smallest (k : Nat) (xs : List α) : (smallest k xs).length = min k xs.length := by
  rw [smallest, List.length_take, List.length_insertionSort]

theorem pairwise_smallest (k : Nat) (xs : List α) : (smallest k xs).Pairwise (· ≤ ·) :=
  (List.pairwise_insertionSort (· ≤ ·) xs).sublist (List.take_sublist k _)

theorem smallest_perm (h : xs.Perm ys) : smallest k xs = smallest k ys := by
  have hsorted : xs.insertionSort (· ≤ ·) = ys.insertionSort (· ≤ ·) :=
    (((List.perm_insertionSort (· ≤ ·) xs).trans h).trans
      (List.perm_insertionSort (· ≤ ·) ys).symm).eq_of_pairwise'
        (List.pairwise_insertionSort (· ≤ ·) xs) (List.pairwise_insertionSort (· ≤ ·) ys)
  rw [smallest, hsorted, smallest]

/-- Only the first elements tell where among them an element belongs. -/
theorem take_orderedInsert (x : α) (xs : List α) (k : Nat) :
    ((xs.take k).orderedInsert (· ≤ ·) x).take k = (xs.orderedInsert (· ≤ ·) x).take k := by
  induction xs generalizing k with
  | nil => rw [List.take_nil]
  | cons y xs ih =>
      cases k with
      | zero => rfl
      | succ k =>
          rw [List.take_succ_cons, List.orderedInsert_cons, List.orderedInsert_cons]
          split
          · rw [List.take_succ_cons, List.take_succ_cons]
            cases k with
            | zero => rfl
            | succ k => rw [List.take_succ_cons, List.take_succ_cons, List.take_take,
                min_eq_left (Nat.le_succ k)]
          · rw [List.take_succ_cons, List.take_succ_cons, ih]

theorem smallest_append (k : Nat) (xs : List α) (x : α) :
    smallest k (xs ++ [x]) = ((smallest k xs).orderedInsert (· ≤ ·) x).take k := by
  have hperm : (xs ++ [x]).Perm ([x] ++ xs) := List.perm_append_comm
  rw [smallest_perm hperm, List.singleton_append, smallest, List.insertionSort_cons, smallest,
    take_orderedInsert]

theorem orderedInsert_append (h : x ≤ z) :
    (xs ++ [z]).orderedInsert (· ≤ ·) x = xs.orderedInsert (· ≤ ·) x ++ [z] := by
  induction xs with
  | nil => simp [h]
  | cons y xs ih =>
      rw [List.cons_append, List.orderedInsert_cons, List.orderedInsert_cons, ih]
      split <;> rfl

/-- What is above all of them goes to the end. -/
theorem orderedInsert_of_le (hsorted : xs.Pairwise (· ≤ ·)) (h : ∀ y ∈ xs, y ≤ x) :
    xs.orderedInsert (· ≤ ·) x = xs ++ [x] := by
  have hperm : (xs.orderedInsert (· ≤ ·) x).Perm (xs ++ [x]) :=
    (List.perm_orderedInsert (· ≤ ·) x xs).trans (List.perm_append_singleton x xs).symm
  refine hperm.eq_of_pairwise' (hsorted.orderedInsert x xs) (List.pairwise_append.mpr
    ⟨hsorted, List.pairwise_singleton _ x, fun y hy z hz => ?_⟩)
  rw [List.mem_singleton.mp hz]
  exact h y hy

theorem head_smallest_le (hk : 0 < k) (hx : (smallest k xs).head? = some x) :
    x ∈ xs ∧ ∀ y ∈ xs, x ≤ y := by
  have hhead : (xs.insertionSort (· ≤ ·)).head? = some x := by
    rw [smallest, List.head?_take, if_neg (by omega)] at hx
    exact hx
  obtain ⟨rest, hrest⟩ := List.head?_eq_some_iff.mp hhead
  have hsorted := List.pairwise_insertionSort (· ≤ ·) xs
  rw [hrest] at hsorted
  have hmem : ∀ y, y ∈ xs ↔ y = x ∨ y ∈ rest := by
    intro y
    rw [← List.mem_insertionSort (· ≤ ·), hrest, List.mem_cons]
  refine ⟨(hmem x).mpr (Or.inl rfl), fun y hy => ?_⟩
  rcases (hmem y).mp hy with rfl | hy
  · exact le_refl y
  · exact (List.pairwise_cons.mp hsorted).1 y hy

end Smallest

end CompOrg
