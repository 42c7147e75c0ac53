import Mathlib.Data.List.Basic
import Mathlib.Algebra.Order.Group.Nat

/-! # Consecutive segments

A list of segments laid out from a base position without gaps. Positions are
never stored: they follow from the lengths, so two segments at different
positions are disjoint by construction.
-/

namespace CompOrg.Segments

variable {α : Type*} (len : α → Nat)

def extent : List α → Nat
  | [] => 0
  | b :: bs => len b + extent bs

@[simp] theorem extent_nil : extent len [] = 0 := rfl

@[simp] theorem extent_cons (b : α) (bs : List α) :
    extent len (b :: bs) = len b + extent len bs := rfl

@[simp] theorem extent_append (xs ys : List α) :
    extent len (xs ++ ys) = extent len xs + extent len ys := by
  induction xs with
  | nil => simp
  | cons x xs ih => simp [ih, Nat.add_assoc]

/-- Segment `b` starts at position `p` when `bs` is laid out from `base`. -/
def StartsAt : Nat → List α → Nat → α → Prop
  | _, [], _, _ => False
  | base, c :: cs, p, b => (p = base ∧ b = c) ∨ StartsAt (base + len c) cs p b

variable {len} {base p q : Nat} {b c : α} {bs xs ys : List α}

@[simp] theorem not_startsAt_nil : ¬ StartsAt len base [] p b := id

theorem startsAt_cons :
    StartsAt len base (c :: bs) p b ↔ (p = base ∧ b = c) ∨ StartsAt len (base + len c) bs p b :=
  Iff.rfl

theorem startsAt_append :
    StartsAt len base (xs ++ ys) p b ↔
      StartsAt len base xs p b ∨ StartsAt len (base + extent len xs) ys p b := by
  induction xs generalizing base with
  | nil => simp
  | cons x xs ih => simp [startsAt_cons, ih, or_assoc, Nat.add_assoc]

theorem startsAt_iff_exists_append :
    StartsAt len base bs p b ↔ ∃ pre post, bs = pre ++ b :: post ∧ p = base + extent len pre := by
  constructor
  · intro h
    induction bs generalizing base with
    | nil => exact h.elim
    | cons c cs ih =>
        rcases h with ⟨rfl, rfl⟩ | h
        · exact ⟨[], cs, rfl, by simp⟩
        · obtain ⟨pre, post, rfl, rfl⟩ := ih h
          exact ⟨c :: pre, post, rfl, by simp [Nat.add_assoc]⟩
  · rintro ⟨pre, post, rfl, rfl⟩
    rw [startsAt_append]
    exact Or.inr (Or.inl ⟨rfl, rfl⟩)

theorem startsAt_middle (pre post : List α) :
    StartsAt len base (pre ++ b :: post) (base + extent len pre) b :=
  startsAt_iff_exists_append.mpr ⟨pre, post, rfl, rfl⟩

theorem StartsAt.bounds (h : StartsAt len base bs p b) :
    base ≤ p ∧ p + len b ≤ base + extent len bs := by
  obtain ⟨pre, post, rfl, rfl⟩ := startsAt_iff_exists_append.mp h
  simp only [extent_append, extent_cons]
  omega

/-- Of two segments, the one that starts earlier ends before the other starts. -/
theorem StartsAt.end_le_of_lt (h : StartsAt len base bs p b) (h' : StartsAt len base bs q c)
    (hlt : p < q) : p + len b ≤ q := by
  induction bs generalizing base with
  | nil => exact h.elim
  | cons d ds ih =>
      rcases h with ⟨rfl, rfl⟩ | h <;> rcases h' with ⟨rfl, rfl⟩ | h'
      · omega
      · exact h'.bounds.1
      · have := h.bounds.1
        omega
      · exact ih h h'

theorem StartsAt.unique (hlen : ∀ d ∈ bs, 0 < len d) (h : StartsAt len base bs p b)
    (h' : StartsAt len base bs p c) : b = c := by
  induction bs generalizing base with
  | nil => exact h.elim
  | cons d ds ih =>
      have hd := hlen d (by simp)
      rcases h with ⟨rfl, rfl⟩ | h <;> rcases h' with ⟨hp, rfl⟩ | h'
      · rfl
      · have := h'.bounds.1
        omega
      · have := h.bounds.1
        omega
      · exact ih (fun d hd => hlen d (by simp [hd])) h h'

/-! ## The segment that covers a position -/

variable (len) in
/-- Start of the segment that covers position `c`; the end of the layout when
no segment does. -/
def startOf : Nat → List α → Nat → Nat
  | base, [], _ => base
  | base, d :: ds, c => if c < base + len d then base else startOf (base + len d) ds c

theorem startOf_spec (hlo : base ≤ p) (hhi : p < base + extent len bs) :
    ∃ d, StartsAt len base bs (startOf len base bs p) d ∧
      startOf len base bs p ≤ p ∧ p < startOf len base bs p + len d := by
  induction bs generalizing base with
  | nil =>
      simp only [extent_nil] at hhi
      omega
  | cons d ds ih =>
      by_cases h : p < base + len d
      · exact ⟨d, by simp [startOf, h, startsAt_cons], by simpa [startOf, h] using hlo,
          by simp [startOf, h]⟩
      · have hhi' : p < base + len d + extent len ds := by
          simp only [extent_cons] at hhi
          omega
        obtain ⟨e, he, hle, hlt⟩ := ih (Nat.le_of_not_lt h) hhi'
        exact ⟨e, by simp [startOf, h, startsAt_cons, he], by simpa [startOf, h] using hle,
          by simpa [startOf, h] using hlt⟩

theorem StartsAt.startOf_eq (h : StartsAt len base bs q b) (hlo : q ≤ p) (hhi : p < q + len b) :
    startOf len base bs p = q := by
  induction bs generalizing base with
  | nil => exact h.elim
  | cons d ds ih =>
      rcases h with ⟨rfl, rfl⟩ | h
      · simp [startOf, hhi]
      · have := h.bounds.1
        rw [startOf, if_neg (by omega)]
        exact ih h

/-! ## Replacing one segment -/

variable (len) in
/-- Replace the segment that starts at `p` by the segments `f` makes of it. -/
def replaceAt (f : α → List α) (p : Nat) : Nat → List α → List α
  | _, [] => []
  | base, d :: ds =>
      if base = p then f d ++ ds else d :: replaceAt f p (base + len d) ds

/-- Replacing a segment by segments of the same extent keeps the extent. -/
theorem extent_replaceAt (f : α → List α) (hf : ∀ d, extent len (f d) = len d) (p base : Nat) :
    ∀ bs, extent len (replaceAt len f p base bs) = extent len bs := by
  intro bs
  induction bs generalizing base with
  | nil => rfl
  | cons d ds ih =>
      rw [replaceAt]
      split
      · rw [extent_append, hf, extent_cons]
      · rw [extent_cons, ih, extent_cons]

theorem replaceAt_middle (f : α → List α) (base : Nat) (pre post : List α)
    (hlen : ∀ d ∈ pre, 0 < len d) :
    replaceAt len f (base + extent len pre) base (pre ++ b :: post) = pre ++ f b ++ post := by
  induction pre generalizing base with
  | nil => simp [replaceAt]
  | cons d ds ih =>
      have hd := hlen d (by simp)
      have ih' := ih (base + len d) fun d hd => hlen d (by simp [hd])
      rw [List.cons_append, replaceAt, if_neg (by simp only [extent_cons]; omega), extent_cons,
        ← Nat.add_assoc, ih']
      rfl

end CompOrg.Segments
