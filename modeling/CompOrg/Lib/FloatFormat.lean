import Mathlib.Algebra.Order.Field.Power
import Mathlib.Data.Rat.Cast.Order
import Mathlib.Tactic.FieldSimp
import Mathlib.Tactic.Ring
import Mathlib.Tactic.Positivity

/-! # Binary floating point formats

A pattern has a sign, an exponent of `w` bits and a fraction of `p` bits. Its value is
exact. The values of the finite patterns are multiples of the least positive one, so that
an operation on the fields is checked on natural numbers.
-/

namespace CompOrg.FloatFormat

@[ext] structure Pattern (w p : Nat) where
  negative : Bool
  exponent : Nat
  fraction : Nat
  exponent_lt : exponent < 2 ^ w
  fraction_lt : fraction < 2 ^ p

def bias (w : Nat) : Int := 2 ^ (w - 1) - 1

/-- The least positive value. -/
def least (w p : Nat) : ℚ := 2 ^ (1 - bias w - p)

namespace Pattern

variable {w p : Nat} (x y : Pattern w p)

/-- The exponent with all bits set is that of the infinities and of what is no number. -/
def IsFinite : Prop := x.exponent ≠ 2 ^ w - 1

def IsInfinite : Prop := x.exponent = 2 ^ w - 1 ∧ x.fraction = 0

/-- A pattern with exponent 0 is denormal. -/
def magnitude : ℚ :=
  if x.exponent = 0 then x.fraction / 2 ^ p * 2 ^ (1 - bias w)
  else (1 + x.fraction / 2 ^ p) * 2 ^ ((x.exponent : Int) - bias w)

def value : ℚ := if x.negative then -x.magnitude else x.magnitude

/-- The magnitude as a multiple of the least positive value. -/
def units : Nat :=
  if x.exponent = 0 then x.fraction else (2 ^ p + x.fraction) * 2 ^ (x.exponent - 1)

end Pattern

/-- The greatest finite value. -/
def greatest (w p : Nat) : ℚ := (1 + (2 ^ p - 1) / 2 ^ p) * 2 ^ ((2 ^ w - 2 : Int) - bias w)

def greatestUnits (w p : Nat) : Nat := (2 ^ p + (2 ^ p - 1)) * 2 ^ (2 ^ w - 2 - 1)

/-- `y` is what doubling `x` gives: what is not finite stays, twice the value is taken where
it is in range, and infinity otherwise. -/
structure IsTwice {w p : Nat} (x y : Pattern w p) : Prop where
  special : ¬ x.IsFinite → y = x
  exact : x.IsFinite → |2 * x.value| ≤ greatest w p →
    y.IsFinite ∧ y.value = 2 * x.value ∧ y.negative = x.negative
  overflow : x.IsFinite → greatest w p < |2 * x.value| →
    y.IsInfinite ∧ y.negative = x.negative

section Values

variable {w p : Nat} {x y : Pattern w p}

theorem least_pos (w p : Nat) : 0 < least w p := by
  unfold least
  positivity

/-- A power of two counted from the least value. -/
theorem two_pow_least (w p n : Nat) :
    (2 : ℚ) ^ ((n : Int) + 1 - bias w) = 2 ^ p * 2 ^ n * least w p := by
  have hexp : (n : Int) + 1 - bias w = p + n + (1 - bias w - p) := by ring
  rw [least, hexp, zpow_add₀ (by norm_num), zpow_add₀ (by norm_num), zpow_natCast, zpow_natCast]

theorem magnitude_eq (x : Pattern w p) : x.magnitude = x.units * least w p := by
  unfold Pattern.magnitude Pattern.units
  split
  next hzero =>
    have hpow := two_pow_least w p 0
    simp only [Nat.cast_zero, zero_add, pow_zero, mul_one] at hpow
    rw [hpow]
    field_simp
  next hne =>
    obtain ⟨e, he⟩ := Nat.exists_eq_add_one_of_ne_zero hne
    rw [he, Nat.add_sub_cancel, Nat.cast_add, Nat.cast_one, two_pow_least w p e]
    push_cast
    field_simp

theorem greatest_eq (hw : 2 ≤ w) : greatest w p = greatestUnits w p * least w p := by
  have hpow : 2 ^ 2 ≤ 2 ^ w := Nat.pow_le_pow_right (by decide) hw
  obtain ⟨e, he⟩ : ∃ e, 2 ^ w = e + 3 := ⟨2 ^ w - 3, by omega⟩
  have hexp : ((2 : Int) ^ w - 2) = (e : Int) + 1 := by
    have hcast : ((2 ^ w : Nat) : Int) = e + 3 := by rw [he]; push_cast; ring
    push_cast at hcast
    rw [hcast]
    ring
  have hpos : 1 ≤ 2 ^ p := Nat.one_le_two_pow
  rw [greatest, greatestUnits, hexp, two_pow_least w p e, he]
  push_cast [Nat.cast_sub hpos]
  field_simp

theorem abs_value (x : Pattern w p) : |x.value| = x.units * least w p := by
  have hnonneg : 0 ≤ x.magnitude := by
    rw [magnitude_eq]
    exact mul_nonneg (Nat.cast_nonneg _) (least_pos w p).le
  unfold Pattern.value
  split
  · rw [abs_neg, abs_of_nonneg hnonneg, magnitude_eq]
  · rw [abs_of_nonneg hnonneg, magnitude_eq]

theorem abs_two_mul_le_iff (hw : 2 ≤ w) :
    |2 * x.value| ≤ greatest w p ↔ 2 * x.units ≤ greatestUnits w p := by
  rw [abs_mul, abs_value, greatest_eq hw, abs_two, ← mul_assoc,
    mul_le_mul_iff_left₀ (least_pos w p)]
  exact_mod_cast Iff.rfl

/-- Same sign and twice the units: twice the value. -/
theorem value_two_mul (hsign : y.negative = x.negative) (hunits : y.units = 2 * x.units) :
    y.value = 2 * x.value := by
  have hmagnitude : y.magnitude = 2 * x.magnitude := by
    rw [magnitude_eq, magnitude_eq, hunits]
    push_cast
    ring
  unfold Pattern.value
  rw [hsign, hmagnitude]
  split
  · ring
  · rfl

/-! ## Order -/

theorem units_of_normal (h : x.exponent ≠ 0) :
    x.units = (2 ^ p + x.fraction) * 2 ^ (x.exponent - 1) := if_neg h

theorem units_of_denormal (h : x.exponent = 0) : x.units = x.fraction := if_pos h

/-- Below the next power of two. -/
theorem units_lt (x : Pattern w p) : x.units < 2 ^ p * 2 ^ x.exponent := by
  have hfraction := x.fraction_lt
  by_cases hzero : x.exponent = 0
  · rw [units_of_denormal hzero, hzero, pow_zero, mul_one]
    exact hfraction
  · obtain ⟨e, he⟩ := Nat.exists_eq_add_one_of_ne_zero hzero
    rw [units_of_normal hzero, he, Nat.add_sub_cancel]
    calc (2 ^ p + x.fraction) * 2 ^ e
        < (2 ^ p + 2 ^ p) * 2 ^ e := Nat.mul_lt_mul_of_pos_right (by omega) (Nat.two_pow_pos e)
      _ = 2 ^ p * 2 ^ (e + 1) := by ring

theorem units_lt_units (h : x.exponent < y.exponent) : x.units < y.units := by
  have hle : 2 ^ x.exponent ≤ 2 ^ (y.exponent - 1) := Nat.pow_le_pow_right (by decide) (by omega)
  rw [units_of_normal (Nat.ne_of_gt (Nat.zero_lt_of_lt h))]
  calc x.units
      < 2 ^ p * 2 ^ x.exponent := units_lt x
    _ ≤ (2 ^ p + y.fraction) * 2 ^ (y.exponent - 1) :=
        Nat.mul_le_mul (Nat.le_add_right _ _) hle

theorem eq_of_units (hsign : x.negative = y.negative) (hunits : x.units = y.units) : x = y := by
  have hexponent : x.exponent = y.exponent := by
    rcases Nat.lt_trichotomy x.exponent y.exponent with h | h | h
    · exact absurd hunits (units_lt_units h).ne
    · exact h
    · exact absurd hunits (units_lt_units h).ne'
  have hfraction : x.fraction = y.fraction := by
    unfold Pattern.units at hunits
    rw [hexponent] at hunits
    split at hunits
    · exact hunits
    · exact Nat.add_left_cancel (Nat.eq_of_mul_eq_mul_right (Nat.two_pow_pos _) hunits)
  exact Pattern.ext hsign hexponent hfraction

theorem units_le_greatest (hw : 2 ≤ w) (hx : x.IsFinite) : x.units ≤ greatestUnits w p := by
  have hpow : 2 ^ 2 ≤ 2 ^ w := Nat.pow_le_pow_right (by decide) hw
  have hlt := x.exponent_lt
  have hfraction := x.fraction_lt
  unfold Pattern.IsFinite at hx
  by_cases hzero : x.exponent = 0
  · rw [units_of_denormal hzero]
    exact (Nat.le_add_right_of_le hfraction.le).trans
      (Nat.le_mul_of_pos_right _ (Nat.two_pow_pos _))
  · rw [units_of_normal hzero]
    exact Nat.mul_le_mul (by omega) (Nat.pow_le_pow_right (by decide) (by omega))

/-! ## Doubling -/

theorem isTwice_self (hx : ¬ x.IsFinite) : IsTwice x x :=
  ⟨fun _ => rfl, fun h => (hx h).elim, fun h => (hx h).elim⟩

theorem isTwice_of_units (hw : 2 ≤ w) (hx : x.IsFinite) (hy : y.IsFinite)
    (hsign : y.negative = x.negative) (hunits : y.units = 2 * x.units) : IsTwice x y where
  special h := (h hx).elim
  exact _ _ := ⟨hy, value_two_mul hsign hunits, hsign⟩
  overflow _ h := by
    have hle := units_le_greatest hw hy
    rw [hunits] at hle
    exact absurd ((abs_two_mul_le_iff hw).mpr hle) (not_le.mpr h)

/-- Doubling the greatest exponent is out of range. -/
theorem isTwice_iff_of_greatest (hw : 2 ≤ w) (hx : x.exponent = 2 ^ w - 2) :
    IsTwice x y ↔ y.IsInfinite ∧ y.negative = x.negative := by
  have hpow : 2 ^ 2 ≤ 2 ^ w := Nat.pow_le_pow_right (by decide) hw
  have hpos : 0 < 2 ^ p := Nat.two_pow_pos p
  have hfinite : x.IsFinite := by
    unfold Pattern.IsFinite
    omega
  have hgreat : greatest w p < |2 * x.value| := by
    rw [← not_le, abs_two_mul_le_iff hw, not_le, units_of_normal (by omega), hx, greatestUnits,
      ← mul_assoc]
    exact Nat.mul_lt_mul_of_pos_right (by omega) (Nat.two_pow_pos _)
  constructor
  · exact fun h => h.overflow hfinite hgreat
  · exact fun h => ⟨fun hx => (hx hfinite).elim, fun _ hle => absurd hle (not_le.mpr hgreat),
      fun _ _ => h⟩

theorem eq_of_value (hsign : x.negative = y.negative) (hvalue : x.value = y.value) : x = y := by
  apply eq_of_units hsign
  have habs := congrArg abs hvalue
  rw [abs_value, abs_value] at habs
  exact_mod_cast mul_right_cancel₀ (least_pos w p).ne' habs

/-- There is one such pattern at most. -/
theorem IsTwice.unique {y' : Pattern w p} (h : IsTwice x y) (h' : IsTwice x y') : y = y' := by
  by_cases hx : x.IsFinite
  · by_cases hle : |2 * x.value| ≤ greatest w p
    · obtain ⟨-, hvalue, hsign⟩ := h.exact hx hle
      obtain ⟨-, hvalue', hsign'⟩ := h'.exact hx hle
      exact eq_of_value (hsign.trans hsign'.symm) (hvalue.trans hvalue'.symm)
    · obtain ⟨⟨hexponent, hfraction⟩, hsign⟩ := h.overflow hx (not_le.mp hle)
      obtain ⟨⟨hexponent', hfraction'⟩, hsign'⟩ := h'.overflow hx (not_le.mp hle)
      exact Pattern.ext (hsign.trans hsign'.symm) (hexponent.trans hexponent'.symm)
        (hfraction.trans hfraction'.symm)
  · exact (h.special hx).trans (h'.special hx).symm

/-! ## The operations -/

namespace Pattern

def isNaN (x : Pattern w p) : Bool := x.exponent == 2 ^ w - 1 && x.fraction != 0

def neg (x : Pattern w p) : Pattern w p := { x with negative := !x.negative }

theorem two_pow_pred_lt (w : Nat) : 2 ^ w - 1 < 2 ^ w := Nat.sub_lt (Nat.two_pow_pos w) Nat.one_pos

/-- The product with two: a bit that is carried out of a denormal fraction makes the number
normal, and out of range there is infinity. -/
def twice (hw : 2 ≤ w) (x : Pattern w p) : Pattern w p :=
  if x.exponent = 2 ^ w - 1 then x
  else if x.exponent = 0 then
    if hcarry : 2 * x.fraction < 2 ^ p then
      ⟨x.negative, 0, 2 * x.fraction, Nat.two_pow_pos w, hcarry⟩
    else ⟨x.negative, 1, 2 * x.fraction - 2 ^ p, Nat.one_lt_two_pow (by omega),
      by have := x.fraction_lt; omega⟩
  else if hlast : x.exponent + 1 < 2 ^ w - 1 then
    ⟨x.negative, x.exponent + 1, x.fraction, by omega, x.fraction_lt⟩
  else ⟨x.negative, 2 ^ w - 1, 0, two_pow_pred_lt w, Nat.two_pow_pos p⟩

end Pattern

theorem isTwice_twice (hw : 2 ≤ w) (x : Pattern w p) :
    IsTwice x (x.twice hw) := by
  have hpow : 2 ^ 2 ≤ 2 ^ w := Nat.pow_le_pow_right (by decide) hw
  have hlt := x.exponent_lt
  have hfraction := x.fraction_lt
  unfold Pattern.twice
  split
  next hspecial => exact isTwice_self fun hfinite => hfinite hspecial
  next hfinite =>
    split
    next hzero =>
      split
      next hcarry =>
        refine isTwice_of_units hw hfinite (by omega : 0 ≠ 2 ^ w - 1) rfl ?_
        rw [units_of_denormal hzero]
        exact units_of_denormal rfl
      next hcarry =>
        refine isTwice_of_units hw hfinite (by omega : 1 ≠ 2 ^ w - 1) rfl ?_
        rw [units_of_denormal hzero, units_of_normal Nat.one_ne_zero]
        simp only [Nat.sub_self, pow_zero, mul_one]
        omega
    next hnormal =>
      split
      next hlast =>
        refine isTwice_of_units hw hfinite (by omega : x.exponent + 1 ≠ 2 ^ w - 1) rfl ?_
        obtain ⟨e, he⟩ := Nat.exists_eq_add_one_of_ne_zero hnormal
        rw [units_of_normal hnormal, units_of_normal (Nat.succ_ne_zero _)]
        simp only [he, Nat.add_sub_cancel]
        ring
      next hlast =>
        rw [isTwice_iff_of_greatest hw (by omega)]
        exact ⟨⟨rfl, rfl⟩, rfl⟩

end Values

end CompOrg.FloatFormat
