import CompOrg.Lib.Bubble
import Mathlib.Order.Lattice
import Mathlib.Algebra.Order.Group.Int

/-! # `bubbleSort` of `sortfile.c`

Three programs have the same function. An access outside of the array has no result.
A loop `for (j = ..; j < n; j++)` runs by the number of iterations that are left.
-/

namespace CompOrg.SortFile

open Bubble

def swap (array : List Int) (first second : Nat) : Option (List Int) := do
  let holder ← array[first]?
  let other ← array[second]?
  return (array.set first other).set second holder

def sort (array : List Int) (first second : Nat) (isIncreasing : Bool) : Option (List Int) := do
  let a ← array[first]?
  let b ← array[second]?
  if (!isIncreasing && a < b) || (isIncreasing && a > b) then swap array first second
  else return array

/-- `for (j = ..; j < size - 1 - i; j++)` -/
def innerLoop (isIncreasing : Bool) : Nat → Nat → List Int → Option (List Int)
  | 0, _, array => some array
  | n + 1, j, array => do
      let array ← sort array j (j + 1) isIncreasing
      innerLoop isIncreasing n (j + 1) array

/-- `for (i = ..; i < size; i++)` -/
def outerLoop (isIncreasing : Bool) (size : Nat) : Nat → Nat → List Int → Option (List Int)
  | 0, _, array => some array
  | n + 1, i, array => do
      let array ← innerLoop isIncreasing (size - 1 - i) 0 array
      outerLoop isIncreasing size n (i + 1) array

def bubbleSort (array : List Int) (size : Int) (isIncreasing : Bool) : Option (List Int) :=
  if size ≥ 2 then outerLoop isIncreasing size.toNat size.toNat 0 array else some array

/-- What the two directions call in order. -/
def InOrder (isIncreasing : Bool) (a b : Int) : Prop := if isIncreasing then a ≤ b else b ≤ a

instance (isIncreasing : Bool) : DecidableRel (InOrder isIncreasing) := fun a b =>
  inferInstanceAs (Decidable (if isIncreasing then a ≤ b else b ≤ a))

section BubbleSort

variable {isIncreasing : Bool} {front back : List Int}

theorem inOrder_total (isIncreasing : Bool) (a b : Int) :
    InOrder isIncreasing a b ∨ InOrder isIncreasing b a := by
  cases isIncreasing with
  | true => exact le_total a b
  | false => exact le_total b a

theorem inOrder_trans (isIncreasing : Bool) (a b c : Int) (hab : InOrder isIncreasing a b)
    (hbc : InOrder isIncreasing b c) : InOrder isIncreasing a c := by
  cases isIncreasing with
  | true => exact le_trans hab hbc
  | false => exact le_trans hbc hab

/-- Two neighbours are exchanged if they are out of order. -/
theorem sort_neighbours (front : List Int) (x y : Int) (rest : List Int) (isIncreasing : Bool) :
    sort (front ++ x :: y :: rest) front.length (front.length + 1) isIncreasing =
      some (front ++ if InOrder isIncreasing x y then x :: y :: rest else y :: x :: rest) := by
  have hx : (front ++ x :: y :: rest)[front.length]? = some x := by simp
  have hy : (front ++ x :: y :: rest)[front.length + 1]? = some y := by simp
  have hswap : swap (front ++ x :: y :: rest) front.length (front.length + 1) =
      some (front ++ y :: x :: rest) := by
    rw [swap, hx, hy]
    simp
  rw [sort, hx, hy]
  simp only [Option.bind_eq_bind, Option.bind_some, hswap]
  cases isIncreasing with
  | true =>
      by_cases hle : x ≤ y
      · simp [InOrder, hle, not_lt.mpr hle]
      · simp [InOrder, hle, not_le.mp hle]
  | false =>
      by_cases hle : y ≤ x
      · simp [InOrder, hle, not_lt.mpr hle]
      · simp [InOrder, hle, not_le.mp hle]

/-- The inner loop takes `x` through the elements behind it. -/
theorem innerLoop_pass (front : List Int) (x : Int) (xs rest : List Int) (isIncreasing : Bool) :
    innerLoop isIncreasing xs.length front.length (front ++ x :: (xs ++ rest)) =
      some (front ++ (Bubble.pass (InOrder isIncreasing) x xs ++ rest)) := by
  induction xs generalizing front x with
  | nil => rfl
  | cons y ys ih =>
      rw [List.length_cons, innerLoop, List.cons_append, sort_neighbours, Bubble.pass]
      simp only [Option.bind_eq_bind, Option.bind_some]
      split
      · have hstep := ih (front ++ [x]) y
        simpa using hstep
      · have hstep := ih (front ++ [y]) x
        simpa using hstep

/-- The outer loop moves the last element of the front to the sorted end. -/
theorem outerLoop_sorts (size : Nat) (rest : List Int)
    (h : EndsSorted (InOrder isIncreasing) front back)
    (hsize : front.length + back.length = size) :
    ∃ result, outerLoop isIncreasing size front.length back.length (front ++ (back ++ rest)) =
        some (result ++ rest) ∧
      result.Pairwise (InOrder isIncreasing) ∧ result.Perm (front ++ back) := by
  generalize hn : front.length = n
  induction n generalizing front back with
  | zero =>
      obtain rfl := List.length_eq_zero_iff.mp hn
      exact ⟨back, rfl, h.sorted, List.Perm.refl _⟩
  | succ n ih =>
      obtain ⟨x, xs, rfl⟩ := List.exists_cons_of_length_eq_add_one hn
      obtain ⟨front, last, hpass, hlength, hends⟩ :=
        h.pass (inOrder_total isIncreasing) (inOrder_trans isIncreasing)
      rw [List.length_cons] at hn hsize
      have hinner : innerLoop isIncreasing xs.length 0 (x :: xs ++ (back ++ rest)) =
          some (front ++ (last :: back ++ rest)) := by
        have hrun := innerLoop_pass [] x xs (back ++ rest) isIncreasing
        rw [hpass] at hrun
        simpa using hrun
      obtain ⟨result, hrun, hsorted, hperm⟩ := ih hends (by rw [List.length_cons]; omega)
        (by omega)
      have hbound : size - 1 - back.length = xs.length := by omega
      refine ⟨result, ?_, hsorted, hperm.trans ?_⟩
      · rw [outerLoop, hbound, hinner]
        exact hrun
      · calc front ++ last :: back
            = front ++ [last] ++ back := by simp
          _ = Bubble.pass (InOrder isIncreasing) x xs ++ back := by rw [hpass]
          List.Perm _ (x :: xs ++ back) := (pass_perm x xs).append_right back

/-- The elements in front are sorted, and those behind them are left alone. -/
theorem bubbleSort_append (front rest : List Int) (isIncreasing : Bool) :
    ∃ result, bubbleSort (front ++ rest) front.length isIncreasing = some (result ++ rest) ∧
      result.Pairwise (InOrder isIncreasing) ∧ result.Perm front := by
  unfold bubbleSort
  split
  next =>
    have hstart : EndsSorted (InOrder isIncreasing) front [] := endsSorted_nil front
    obtain ⟨result, hrun, hsorted, hperm⟩ := outerLoop_sorts front.length rest hstart rfl
    rw [List.append_nil] at hperm
    exact ⟨result, hrun, hsorted, hperm⟩
  next hsmall =>
    refine ⟨front, rfl, ?_, List.Perm.refl _⟩
    have hshort : front.length ≤ 1 := by omega
    match front, hshort with
    | [], _ => exact List.Pairwise.nil
    | [a], _ => exact List.pairwise_singleton _ a

theorem bubbleSort_sorts (array : List Int) (size : Int) (isIncreasing : Bool)
    (hsize : size ≤ array.length) :
    ∃ result, bubbleSort array size isIncreasing = some result ∧
      (result.take size.toNat).Pairwise (InOrder isIncreasing) ∧
      (result.take size.toNat).Perm (array.take size.toNat) ∧
      result.drop size.toNat = array.drop size.toNat := by
  by_cases hnegative : size < 0
  · have hzero : size.toNat = 0 := by omega
    refine ⟨array, if_neg (by omega), ?_, List.Perm.refl _, rfl⟩
    rw [hzero]
    exact List.Pairwise.nil
  · obtain ⟨n, rfl⟩ := Int.eq_ofNat_of_zero_le (not_lt.mp hnegative)
    have hlength : (array.take n).length = n := by
      rw [List.length_take]
      omega
    obtain ⟨result, hrun, hsorted, hperm⟩ :=
      bubbleSort_append (array.take n) (array.drop n) isIncreasing
    have hresult : result.length = n := hperm.length_eq.trans hlength
    rw [List.take_append_drop, hlength] at hrun
    rw [Int.toNat_natCast]
    refine ⟨result ++ array.drop n, hrun, ?_, ?_, ?_⟩
    · rwa [List.take_left' hresult]
    · rwa [List.take_left' hresult]
    · rw [List.drop_left' hresult]

/-- Three of four elements in decreasing order. -/
theorem bubbleSort_sorts_three :
    ∃ result, bubbleSort [2, 3, 1, 9] 3 false = some result ∧
      (result.take 3).Pairwise (InOrder false) ∧ (result.take 3).Perm [2, 3, 1] ∧
      result.drop 3 = [9] :=
  bubbleSort_sorts [2, 3, 1, 9] 3 false (by decide)

end BubbleSort

end CompOrg.SortFile
