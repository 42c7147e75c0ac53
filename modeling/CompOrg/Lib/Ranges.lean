import Mathlib.Order.Lattice
import Mathlib.Data.List.Basic

/-! # Closed ranges of a linear order

Two ranges meet when some point lies in both. Looking only at the end points of one
of them finds every meeting but one kind: the range that strictly surrounds the other
has both of its ends outside.
-/

namespace CompOrg

structure Range (α : Type*) where
  lo : α
  hi : α
  deriving DecidableEq

namespace Range

variable {α : Type*} [LinearOrder α] {r s : Range α}

def Contains (r : Range α) (x : α) : Prop := r.lo ≤ x ∧ x ≤ r.hi

def Meets (r s : Range α) : Prop := ∃ x, r.Contains x ∧ s.Contains x

/-- One of the two ends of `r` lies in `s`. -/
def EndsIn (r s : Range α) : Prop := s.Contains r.lo ∨ s.Contains r.hi

def Surrounds (r s : Range α) : Prop := r.lo < s.lo ∧ s.hi < r.hi

instance (r : Range α) (x : α) : Decidable (r.Contains x) :=
  inferInstanceAs (Decidable (r.lo ≤ x ∧ x ≤ r.hi))

instance (r s : Range α) : Decidable (r.EndsIn s) :=
  inferInstanceAs (Decidable (s.Contains r.lo ∨ s.Contains r.hi))

instance (r s : Range α) : Decidable (r.Surrounds s) :=
  inferInstanceAs (Decidable (r.lo < s.lo ∧ s.hi < r.hi))

theorem Meets.symm (h : r.Meets s) : s.Meets r := by
  obtain ⟨x, hr, hs⟩ := h
  exact ⟨x, hs, hr⟩

theorem contains_lo (h : r.lo ≤ r.hi) : r.Contains r.lo := ⟨le_refl _, h⟩

theorem contains_hi (h : r.lo ≤ r.hi) : r.Contains r.hi := ⟨h, le_refl _⟩

/-- Nonempty ranges meet when neither ends before the other starts. -/
theorem meets_iff_le (hr : r.lo ≤ r.hi) (hs : s.lo ≤ s.hi) :
    r.Meets s ↔ r.lo ≤ s.hi ∧ s.lo ≤ r.hi := by
  constructor
  · rintro ⟨x, ⟨hrl, hrh⟩, hsl, hsh⟩
    exact ⟨hrl.trans hsh, hsl.trans hrh⟩
  · rintro ⟨h, h'⟩
    rcases le_total r.lo s.lo with hle | hle
    · exact ⟨s.lo, ⟨hle, h'⟩, contains_lo hs⟩
    · exact ⟨r.lo, contains_lo hr, hle, h⟩

theorem EndsIn.meets (hr : r.lo ≤ r.hi) (h : r.EndsIn s) : r.Meets s := by
  rcases h with h | h
  · exact ⟨r.lo, contains_lo hr, h⟩
  · exact ⟨r.hi, contains_hi hr, h⟩

theorem Surrounds.meets (hs : s.lo ≤ s.hi) (h : r.Surrounds s) : r.Meets s :=
  ⟨s.lo, ⟨h.1.le, hs.trans h.2.le⟩, contains_lo hs⟩

theorem Surrounds.not_endsIn (h : r.Surrounds s) : ¬ r.EndsIn s := by
  rintro (⟨hlo, -⟩ | ⟨-, hhi⟩)
  · exact absurd h.1 (not_lt.mpr hlo)
  · exact absurd h.2 (not_lt.mpr hhi)

/-- The meetings that the end points of `r` miss are those in which `r` surrounds `s`. -/
theorem meets_iff (hr : r.lo ≤ r.hi) (hs : s.lo ≤ s.hi) :
    r.Meets s ↔ r.EndsIn s ∨ r.Surrounds s := by
  constructor
  · intro h
    obtain ⟨hle, hle'⟩ := (meets_iff_le hr hs).mp h
    rcases le_or_gt s.lo r.lo with hlo | hlo
    · exact Or.inl (Or.inl ⟨hlo, hle⟩)
    · rcases le_or_gt r.hi s.hi with hhi | hhi
      · exact Or.inl (Or.inr ⟨hle', hhi⟩)
      · exact Or.inr ⟨hlo, hhi⟩
  · rintro (h | h)
    · exact h.meets hr
    · exact h.meets hs

/-- Testing the end points accepts the ranges that are disjoint or surround. -/
theorem not_endsIn_iff (hr : r.lo ≤ r.hi) (hs : s.lo ≤ s.hi) :
    ¬ r.EndsIn s ↔ ¬ r.Meets s ∨ r.Surrounds s := by
  rw [meets_iff hr hs]
  constructor
  · intro h
    by_cases hsur : r.Surrounds s
    · exact Or.inr hsur
    · exact Or.inl fun hm => hm.elim h hsur
  · rintro (h | h)
    · exact fun he => h (Or.inl he)
    · exact h.not_endsIn

end Range

end CompOrg
