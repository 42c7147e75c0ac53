import Mathlib.Data.List.Basic
import Mathlib.Data.List.Perm.Basic

/-! # Bubbling

One pass over a list compares neighbours and exchanges those that are out of order. It
takes an element to the end that every other one may precede. The order is any relation
that is total and transitive, so both directions of an order are covered.
-/

namespace CompOrg.Bubble

variable {α : Type*} (r : α → α → Prop) [DecidableRel r]

/-- The element `x` on its way through the list behind it. -/
def pass (x : α) : List α → List α
  | [] => [x]
  | y :: ys => if r x y then x :: pass y ys else y :: pass x ys

variable {r} {x : α} {xs back : List α}

theorem pass_perm (x : α) (xs : List α) : (pass r x xs).Perm (x :: xs) := by
  induction xs generalizing x with
  | nil => exact List.Perm.refl _
  | cons y ys ih =>
      rw [pass]
      split
      · exact (ih y).cons x
      · exact ((ih x).cons y).trans (List.Perm.swap x y ys)

/-- The last element is one that all of them may precede. -/
theorem pass_last (htotal : ∀ a b, r a b ∨ r b a) (htrans : ∀ a b c, r a b → r b c → r a c)
    (x : α) (xs : List α) :
    ∃ front last, pass r x xs = front ++ [last] ∧ ∀ a ∈ x :: xs, r a last := by
  induction xs generalizing x with
  | nil =>
      refine ⟨[], x, rfl, fun a ha => ?_⟩
      obtain rfl := List.mem_singleton.mp ha
      exact (htotal a a).elim id id
  | cons y ys ih =>
      rw [pass]
      by_cases hxy : r x y
      · obtain ⟨front, last, hpass, hlast⟩ := ih y
        rw [if_pos hxy, hpass]
        refine ⟨x :: front, last, rfl, fun a ha => ?_⟩
        rcases List.mem_cons.mp ha with rfl | ha
        · exact htrans _ _ _ hxy (hlast y List.mem_cons_self)
        · exact hlast a ha
      · obtain ⟨front, last, hpass, hlast⟩ := ih x
        have hyx : r y x := (htotal x y).resolve_left hxy
        rw [if_neg hxy, hpass]
        refine ⟨y :: front, last, rfl, fun a ha => ?_⟩
        rcases List.mem_cons.mp ha with rfl | ha
        · exact hlast a List.mem_cons_self
        · rcases List.mem_cons.mp ha with rfl | ha
          · exact htrans _ _ _ hyx (hlast x List.mem_cons_self)
          · exact hlast a (List.mem_cons_of_mem _ ha)

/-- A list whose end is in order and may follow everything in front of it. -/
structure EndsSorted (r : α → α → Prop) (front back : List α) : Prop where
  sorted : back.Pairwise r
  behind : ∀ a ∈ front, ∀ b ∈ back, r a b

omit [DecidableRel r] in
theorem endsSorted_nil (front : List α) : EndsSorted r front [] :=
  ⟨List.Pairwise.nil, fun _ _ _ hb => nomatch hb⟩

/-- A pass over the front makes the sorted end longer by one element. -/
theorem EndsSorted.pass (htotal : ∀ a b, r a b ∨ r b a)
    (htrans : ∀ a b c, r a b → r b c → r a c) (h : EndsSorted r (x :: xs) back) :
    ∃ front last, Bubble.pass r x xs = front ++ [last] ∧ front.length = xs.length ∧
      EndsSorted r front (last :: back) := by
  obtain ⟨front, last, hpass, hlast⟩ := pass_last htotal htrans x xs
  have hperm : (front ++ [last]).Perm (x :: xs) := hpass ▸ pass_perm x xs
  have hlength := hperm.length_eq
  have hbehind : ∀ a ∈ front ++ [last], ∀ b ∈ back, r a b := fun a ha =>
    h.behind a (hperm.mem_iff.mp ha)
  refine ⟨front, last, hpass, by simpa using hlength, ?_, fun a ha b hb => ?_⟩
  · exact List.pairwise_cons.mpr ⟨hbehind last (by simp), h.sorted⟩
  · have hmem : a ∈ front ++ [last] := List.mem_append_left _ ha
    rcases List.mem_cons.mp hb with rfl | hb
    · exact hlast a (hperm.mem_iff.mp hmem)
    · exact hbehind a hmem b hb

end CompOrg.Bubble
